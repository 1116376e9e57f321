import MpOS.Faults

/-!
# Time sharing

`context_switch` leaves a terminal in the middle of its kernel code and returns to it
two switches later. In between the other terminals run any number of system calls,
start and end processes and take interrupts. None of it reaches the task of the
terminal that waits (`Untouched`) : its switch table entry, its pending calls and the
PCBs of its processes. So the switch that comes back to it loads the stack pointers that
were saved, and the terminal finds everything as it left it (`preempted`).
-/

namespace MpOS

namespace Kernel

/-! ## What a system call leaves alone -/

theorem setCurFd_pcb {k : Kernel} {q : Word} (h : k.cur.curFdPtr ≠ .fdTable q) (fd : ℕ) (e : Fd) :
    (k.setCurFd fd e).proc.pcb q = k.proc.pcb q := by
  unfold setCurFd setFd
  cases hptr : k.cur.curFdPtr with
  | null => rfl
  | kernelFdt => rfl
  | fdTable p =>
    have hne : q ≠ p := by
      rintro rfl
      exact h hptr
    simp only [modifyPcb, Function.update_of_ne hne]

/-- The descriptor calls store in the PCB of the current table only. -/
theorem FdSteps.pcb {k k' : Kernel} {q : Word} (h : FdSteps k k')
    (hne : k.cur.curFdPtr ≠ .fdTable q) : k'.proc.pcb q = k.proc.pcb q := by
  induction h with
  | refl => rfl
  | @set k₁ h₁ fd e ih =>
    have hcur : k₁.cur = k.cur := h₁.onlyFds.context.cur
    rw [setCurFd_pcb (by rwa [hcur]), ih]
  | other _ hp _ _ ih => rw [hp, ih]

/-- The closes of an exit, in the state `c` its preparations lead to. -/
theorem closeAll_pcb {k c k₁ : Kernel} {q : Word} (h : c.closeAll = some k₁)
    (hpcb : c.proc.pcb = k.proc.pcb) (hptr : c.cur.curFdPtr = k.cur.curFdPtr)
    (hne : k.cur.curFdPtr ≠ .fdTable q) : k₁.proc.pcb q = k.proc.pcb q := by
  rw [← hptr] at hne
  rw [← hpcb]
  exact (fdSteps_closeAll h).pcb hne

theorem halt_pcb {k k' : Kernel} {status : Byte} {frame : Frame} {q : Word}
    (h : k.halt status = some (frame, k')) (hfd : k.cur.curFdPtr ≠ .fdTable q)
    (hq : q ≠ k.cur.curPid) : k'.proc.pcb q = k.proc.pcb q := by
  simp only [halt] at h
  obtain ⟨k₁, hclose, h⟩ := Option.map_eq_some_iff.1 h
  obtain ⟨-, rfl⟩ := Prod.mk.inj h
  have hpcb : k₁.proc.pcb q = k.proc.pcb q := by
    refine closeAll_pcb hclose rfl ?_ hfd
    simp [clearVid, setPteVid, modifyCur, cur, setEsp0, setRetStatus, setInterruptFlag]
  exact (Function.update_of_ne hq _ _).trans hpcb

theorem haltException_pcb {k k' : Kernel} {frame : Frame} {q : Word}
    (h : k.haltException = some (frame, k')) (hfd : k.cur.curFdPtr ≠ .fdTable q)
    (hq : q ≠ k.cur.curPid) : k'.proc.pcb q = k.proc.pcb q := by
  simp only [haltException] at h
  obtain ⟨k₁, hclose, h⟩ := Option.map_eq_some_iff.1 h
  obtain ⟨-, rfl⟩ := Prod.mk.inj h
  have hpcb : k₁.proc.pcb q = k.proc.pcb q := closeAll_pcb hclose rfl rfl hfd
  exact (Function.update_of_ne hq _ _).trans hpcb

theorem vidmap_pcb {k : Kernel} {q : Word} (screenStart : Word) (hq : q ≠ k.cur.curPid) :
    (k.vidmap screenStart).2.2.proc.pcb q = k.proc.pcb q := by
  unfold vidmap
  split_ifs
  · rfl
  · rfl
  · simp only [mapVid, setPteVid_proc, setPdt_proc, modifyPcb, Function.update_of_ne hq]

end Kernel

/-- The event is a tick of the timer. -/
def Event.isSwitch : Event → Bool
  | .contextSwitch _ => true
  | _ => false

namespace Machine

variable {img : Image} {m m' : Machine} {e : Event} {t : Terminal}

/-! ## The terminals that wait -/

/-- The task of terminal `t` is the same in both states. -/
structure Untouched (t : Terminal) (m m' : Machine) : Prop where
  entry : m'.kernel.proc.processArray t = m.kernel.proc.processArray t
  calls : m'.calls t = m.calls t
  pcb : ∀ p ∈ m.pids t, m'.kernel.proc.pcb p = m.kernel.proc.pcb p

theorem Untouched.pids (h : Untouched t m m') : m'.pids t = m.pids t := by
  rw [Machine.pids, h.calls, Machine.pids]

theorem Untouched.trans {m'' : Machine} (h : Untouched t m m') (h' : Untouched t m' m'') :
    Untouched t m m'' :=
  ⟨h'.entry.trans h.entry, h'.calls.trans h.calls, fun p hp =>
    (h'.pcb p (by rwa [h.pids])).trans (h.pcb p hp)⟩

/-- A process that waits on another terminal is not the running one, and its table is not the
current one. -/
theorem Coherent.waits (h : m.Coherent) (ht : t ≠ m.terminal) {p : Word} (hp : p ∈ m.pids t)
    (hr : m.running ≠ none) :
    p ≠ m.kernel.cur.curPid ∧ m.kernel.cur.curFdPtr ≠ .fdTable p := by
  obtain ⟨q, hq⟩ := Option.ne_none_iff_exists'.1 hr
  have hi := h.installed hq
  have hmem : q ∈ m.pids m.terminal := by
    obtain ⟨c, rest, hs, hc, -, -⟩ := h.stack_eq hr
    rw [Machine.pids, show m.calls m.terminal = c :: rest from hs, List.map_cons, hc, hi.curPid]
    exact List.mem_cons_self
  have hne : p ≠ q := by
    rintro rfl
    exact h.disjoint t m.terminal ht p hp hmem
  rw [hi.curPid, hi.curFdPtr]
  exact ⟨hne, fun heq => hne (FdPtr.fdTable.inj heq).symm⟩

/-- An exit jumps into the terminal's own pending calls. -/
theorem resume_calls {frame : Kernel.Frame} {k : Kernel} (h : m.resume frame k = some m')
    (ht : t ≠ m.terminal) : m'.calls t = m.calls t := by
  unfold resume at h
  split at h
  · exact absurd h (by simp)
  · obtain rfl := Option.some.inj h
    exact Function.update_of_ne ht _ _

/-- A step leaves the tasks of the other terminals alone. -/
theorem step_untouched (h : m.Coherent) (hstep : m.step img e = some m') (ht : t ≠ m.terminal) :
    Untouched t m m' := by
  have hsame : ∀ {k : Kernel}, m.kernel.SameContext k →
      (∀ p ∈ m.pids t, k.proc.pcb p = m.kernel.proc.pcb p) → Untouched t m (m.withKernel k) :=
    fun hk hp => ⟨congrFun hk.processArray t, rfl, hp⟩
  cases step_cases hstep with
  | fail _ => exact ⟨rfl, rfl, fun _ _ => rfl⟩
  | @start frame command pid target k hexec hs =>
    refine ⟨hs.processArray_of_ne ht, Function.update_of_ne ht _ _, fun p hp => ?_⟩
    refine hs.pcb_of_ne ?_
    rintro rfl
    exact h.not_mem_of_use_eq_zero (Kernel.getAvailPcb_eq_some hs.avail).2 t hp
  | exit hcall hm' =>
    obtain ⟨frame, k, hk, hr, hres⟩ := exit_eq_some hm'
    have hkernel := resume_kernel hres
    refine ⟨?_, resume_calls hres ht, fun p hp => ?_⟩
    · rw [hkernel]
      exact (hcall.exits hk).processArray_of_ne ht
    · obtain ⟨hpid, hfd⟩ := h.waits ht hp hr
      rw [hkernel]
      cases hcall with
      | halt status => exact Kernel.halt_pcb hk hfd hpid
      | haltException => exact Kernel.haltException_pcb hk hfd hpid
  | fdCall hr hcall =>
    exact hsame hcall.fdSteps.onlyFds.context fun p hp =>
      hcall.fdSteps.pcb (h.waits ht hp hr).2
  | vidmap hr =>
    exact hsame (Kernel.sameContext_vidmap _ _) fun p hp =>
      Kernel.vidmap_pcb _ (h.waits ht hp hr).1
  | switch frame =>
    refine ⟨?_, rfl, fun p _ => ?_⟩
    · rw [withKernel, Kernel.interruptPit_proc]
      exact Function.update_of_ne ht _ _
    · rw [withKernel, Kernel.interruptPit_pcb]
  | quiet hq =>
    refine hsame hq.sameContext fun p _ => ?_
    rw [hq.proc]

/-! ## Round robin -/

/-- The number of ticks. -/
def switches (es : List Event) : ℕ :=
  es.countP Event.isSwitch

/-- A tick schedules the next terminal, and nothing else does. -/
theorem step_terminal (hstep : m.step img e = some m') :
    m'.terminal = if e.isSwitch then m.terminal + 1 else m.terminal := by
  cases step_cases hstep with
  | fail _ => rfl
  | start _ hs => exact hs.scheduleIndex
  | exit hcall hm' =>
    obtain ⟨frame, k, hk, -, hres⟩ := exit_eq_some hm'
    have hterm : m'.terminal = m.terminal := by
      rw [terminal, resume_kernel hres]
      exact (hcall.exits hk).scheduleIndex
    cases hcall with
    | halt status => exact hterm
    | haltException => exact hterm
  | fdCall _ hcall =>
    have hterm := hcall.fdSteps.onlyFds.context.scheduleIndex
    cases hcall with
    | «open» _ => exact hterm
    | close _ => exact hterm
    | read _ => exact hterm
    | write _ => exact hterm
  | vidmap _ => exact (Kernel.sameContext_vidmap _ _).scheduleIndex
  | switch frame =>
    rw [terminal, withKernel, Kernel.interruptPit_proc]
    rfl
  | quiet hq =>
    have hterm := hq.sameContext.scheduleIndex
    cases hq with
    | interruptKeyboard code => exact hterm
    | interruptRtc => exact hterm
    | switchVid target => exact hterm

/-- The terminals get the processor in a circle, whatever else happens. -/
theorem run_terminal {es : List Event} (h : Transition.run (step img) m es = some m') :
    (m'.terminal : ℕ) = (m.terminal + switches es) % 3 := by
  induction es generalizing m with
  | nil =>
    obtain rfl := Option.some.inj h
    exact (Nat.mod_eq_of_lt m.terminal.isLt).symm
  | cons e es ih =>
    rw [Transition.run_cons] at h
    obtain ⟨m₁, hstep, hrun⟩ := Option.bind_eq_some_iff.1 h
    rw [ih hrun, step_terminal hstep, switches, switches, List.countP_cons]
    split_ifs
    · rw [Fin.val_add, Fin.val_one, Nat.mod_add_mod]
      omega
    · simp

/-! ## A whole round -/

/-- While a terminal waits its task stays as it is. -/
theorem run_untouched {es : List Event} (h : m.Coherent)
    (hrun : Transition.run (step img) m es = some m')
    (ht : ∀ i ≤ switches es, (m.terminal + i) % 3 ≠ (t : ℕ)) : Untouched t m m' := by
  induction es generalizing m with
  | nil =>
    obtain rfl := Option.some.inj hrun
    exact ⟨rfl, rfl, fun _ _ => rfl⟩
  | cons e es ih =>
    rw [Transition.run_cons] at hrun
    obtain ⟨m₁, hstep, hrun⟩ := Option.bind_eq_some_iff.1 hrun
    have hne : t ≠ m.terminal := by
      rintro rfl
      exact ht 0 (Nat.zero_le _) (by rw [Nat.add_zero, Nat.mod_eq_of_lt m.terminal.isLt])
    refine (step_untouched h hstep hne).trans (ih (coherent_step h hstep) hrun fun i hi => ?_)
    rw [step_terminal hstep]
    rw [switches, List.countP_cons] at ht
    split_ifs with he
    · have hi' := ht (i + 1) (by rw [if_pos he]; exact Nat.succ_le_succ hi)
      rw [Fin.val_add, Fin.val_one, Nat.mod_add_mod]
      rwa [Nat.add_assoc, Nat.add_comm 1 i]
    · exact ht i (by rw [if_neg he]; exact hi)

/-- The terminal goes on where it was when `context_switch` left it with `frame` : on the stack
it had, with its kernel stack, its program page and its processes. -/
structure Resumed (m : Machine) (frame : Kernel.SwitchFrame) (m' : Machine) : Prop where
  terminal : m'.terminal = m.terminal
  entry : m'.kernel.cur = { m.kernel.cur with
    curEsp := frame.esp
    curEbp := frame.ebp
    curEsp0 := m.kernel.proc.tssEsp0 }
  esp0 : m'.kernel.proc.tssEsp0 = m.kernel.proc.tssEsp0
  stack : m'.stack = m.stack
  pcb : ∀ p ∈ m.pids m.terminal, m'.kernel.proc.pcb p = m.kernel.proc.pcb p
  program : m.kernel.cur.curPid ≠ noPid →
    m'.kernel.paging.pdt exec = m.kernel.paging.pdt exec

/-- A terminal that loses the processor gets it back with the third tick, and is resumed. -/
theorem preempted (h : m.RegularReachable img) {frame frame' : Kernel.SwitchFrame} {es : List Event}
    (hes : switches es = 1) (hr : Transition.AllEvents (faultStep img) (Regular img) m
      (.contextSwitch frame :: (es ++ [.contextSwitch frame'])))
    (hrun : Transition.run (faultStep img) m
      (.contextSwitch frame :: (es ++ [.contextSwitch frame'])) = some m') :
    Resumed m frame m' := by
  have hm' : m'.RegularReachable img := Transition.Reachable.run h hr hrun
  have hc' := hm'.reachable.coherent
  rw [(Transition.run_congr (fun _ _ hr => faultStep_of_fits hr.2) hr).1] at hrun
  replace h := h.reachable
  rw [Transition.run_cons] at hrun
  obtain ⟨m₁, hstep₁, hrun⟩ := Option.bind_eq_some_iff.1 hrun
  rw [Transition.run_append] at hrun
  obtain ⟨m₂, hrun₂, hrun⟩ := Option.bind_eq_some_iff.1 hrun
  rw [Transition.run_cons] at hrun
  obtain ⟨m₃, hstep₃, hrun⟩ := Option.bind_eq_some_iff.1 hrun
  obtain rfl := Option.some.inj hrun
  have hc₁ := coherent_step h.coherent hstep₁
  have hterm₁ : (m₁.terminal : ℕ) = (m.terminal + 1) % 3 := by
    rw [step_terminal hstep₁]
    exact Fin.val_add _ _
  -- two of the three ticks pass before the terminal is scheduled again
  have hsame : Untouched m.terminal m₁ m₂ := by
    refine run_untouched hc₁ hrun₂ fun i hi => ?_
    rw [hes] at hi
    have hlt := m.terminal.isLt
    omega
  have hterm₂ : m₂.terminal + 1 = m.terminal := by
    have hlt := m.terminal.isLt
    have hrr := run_terminal hrun₂
    rw [hes, hterm₁] at hrr
    refine Fin.ext ?_
    rw [Fin.val_add, Fin.val_one, hrr]
    omega
  obtain rfl := Option.some.inj hstep₁
  obtain rfl := Option.some.inj hstep₃
  have hsaved : (m.kernel.interruptPit frame).proc.processArray m.terminal =
      { m.kernel.cur with
        curEsp := frame.esp
        curEbp := frame.ebp
        curEsp0 := m.kernel.proc.tssEsp0 } := by
    rw [Kernel.interruptPit_proc]
    exact Function.update_self _ _ _
  have hpcb₁ := Kernel.interruptPit_pcb frame m.kernel
  generalize m.kernel.interruptPit frame = k₁ at hsame hsaved hpcb₁ hc₁ hterm₁ hrun₂
  have hnext : m₂.kernel.next = { m.kernel.cur with
      curEsp := frame.esp
      curEbp := frame.ebp
      curEsp0 := m.kernel.proc.tssEsp0 } :=
    (congrArg m₂.kernel.proc.processArray hterm₂).trans (hsame.entry.trans hsaved)
  have hcur := Kernel.interruptPit_cur frame' m₂.kernel
  have hpcb := Kernel.interruptPit_pcb frame' m₂.kernel
  have hesp0 : (m₂.kernel.interruptPit frame').proc.tssEsp0 = m₂.kernel.next.curEsp0 := by
    rw [Kernel.interruptPit_proc]
  have hsched : (m₂.kernel.interruptPit frame').proc.scheduleIndex = m.terminal := by
    rw [Kernel.interruptPit_proc]
    exact hterm₂
  rw [hnext] at hcur hesp0
  generalize m₂.kernel.interruptPit frame' = k at hc' hcur hpcb hesp0 hsched ⊢
  have hterm : (m₂.withKernel k).terminal = m.terminal := hsched
  refine ⟨hterm, hcur, hesp0, ?_, fun p hp => ?_, fun hp => ?_⟩
  · rw [stack, hterm]
    exact hsame.calls
  · show k.proc.pcb p = _
    rw [hpcb, hsame.pcb p hp]
    exact congrFun hpcb₁ p
  · have hpid : k.cur.curPid = m.kernel.cur.curPid := by rw [hcur]
    have hprogram : k.paging.pdt exec = startAddress + fourMb * k.cur.curPid :=
      hc'.program (show k.cur.curPid ≠ noPid by rwa [hpid])
    show k.paging.pdt exec = _
    rw [h.coherent.program hp, hprogram, hpid]

/-- While the first shell waits, the second terminal starts a shell and a child of it, which is
typed to and ends, and the third one shows its screen. -/
def meanwhile : List Event :=
  [.execute ⟨1, 1, fun _ => 0⟩ Kernel.shellCommand, .execute ⟨2, 2, fun _ => 0⟩ Kernel.shellCommand,
    .interruptKeyboard 0x1E, .halt 0, .contextSwitch ⟨4, 5, 6⟩, .interruptRtc, .switchVid 2]

theorem preempted_shell : ∃ m m' : Machine, m.running = some 0 ∧
    Transition.run (faultStep Kernel.shellImage) m
      (.contextSwitch ⟨1, 2, 3⟩ :: (meanwhile ++ [.contextSwitch ⟨7, 8, 9⟩])) = some m' ∧
    Resumed m ⟨1, 2, 3⟩ m' := by
  have hx := Kernel.shell_executable ⟨0, 0, fun _ => 0⟩
  obtain ⟨m, hstep, -, hrun⟩ := exists_first_shell ⟨0, 0, fun _ => 0⟩
  have hboot : first.RegularReachable Kernel.shellImage := .init first_booted
  have hm := hboot.next (regular_execute hx) hstep
  have hstep' : first.faultStep Kernel.shellImage
      (.execute ⟨0, 0, fun _ => 0⟩ Kernel.shellCommand) = some m :=
    (faultStep_of_fits (regular_execute hx).2).trans hstep
  -- the whole run from boot is checked, and its first step taken off
  have hall : Transition.AllEvents (faultStep Kernel.shellImage) (Regular Kernel.shellImage) first
      (.execute ⟨0, 0, fun _ => 0⟩ Kernel.shellCommand :: .contextSwitch ⟨1, 2, 3⟩ ::
        (meanwhile ++ [.contextSwitch ⟨7, 8, 9⟩])) := by
    decide +kernel
  have hsome : (Transition.run (faultStep Kernel.shellImage) first
      (.execute ⟨0, 0, fun _ => 0⟩ Kernel.shellCommand :: .contextSwitch ⟨1, 2, 3⟩ ::
        (meanwhile ++ [.contextSwitch ⟨7, 8, 9⟩]))).isSome := by
    decide +kernel
  obtain ⟨m', hrun'⟩ := Option.isSome_iff_exists.1 hsome
  rw [Transition.run_cons, hstep', Option.bind_some] at hrun'
  exact ⟨m, m', hrun, hrun', preempted hm rfl (hall.2 m hstep') hrun'⟩

end Machine

end MpOS
