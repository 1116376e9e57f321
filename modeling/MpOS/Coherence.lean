import MpOS.Chains

/-!
# Coherence of the process contexts

The control stack of every terminal is the chain of parent pids from its current
process, and each PCB on it holds the frame of the pending call that started the
process (`Coherent`). So the process whose user code runs is the current one, and its
context is installed (`Installed`).

Everything but `execute`, the exits and `context_switch` leaves the contexts alone
(`ContextStep.stay`), so the invariant has four cases to check.
-/

namespace MpOS

/-- The event is a read. -/
def Event.isRead : Event → Bool
  | .read _ _ _ => true
  | _ => false

namespace Machine

/-- The chains of the kernel are the control stacks, and each PCB on one holds the frame of the
call that started its process. -/
structure Coherent (m : Machine) : Prop extends m.kernel.Chained m.pids where
  frame : ∀ t, ∀ c ∈ m.calls t, c.frame =
    ⟨(m.kernel.proc.pcb c.child).parentEsp, (m.kernel.proc.pcb c.child).parentEbp⟩

/-! ## What a step does to the contexts -/

/-- The two exits, with what they do to the status. -/
inductive ExitStatus (k : Kernel) : Event → Kernel → Prop
  | halt {status : Byte} {k' : Kernel} : k'.proc.retStatus = status.toInt8.toInt →
      ExitStatus k (.halt status) k'
  | haltException {k' : Kernel} : k'.proc.retStatus = k.proc.retStatus →
      ExitStatus k .haltException k'

/-- The steps that start a process, end one, switch terminals, or leave the contexts alone. -/
inductive ContextStep (m : Machine) : Event → Machine → Prop
  | start {frame : Kernel.ExecFrame} {command : CString} {pid : Word} {k : Kernel} :
      m.kernel.Starts frame command pid k →
      ContextStep m (.execute frame command) (m.enter ⟨⟨frame.esp, frame.ebp⟩, pid⟩ k)
  | exit {e : Event} {frame : Kernel.Frame} {k : Kernel} {m' : Machine} :
      ExitStatus m.kernel e k → m.running ≠ none → m.kernel.Exits frame k →
      m.resume frame k = some m' → ContextStep m e m'
  | switch (frame : Kernel.SwitchFrame) :
      ContextStep m (.contextSwitch frame) (m.withKernel (m.kernel.interruptPit frame))
  | stay {e : Event} {k : Kernel} : m.kernel.SameContext k → ContextStep m e (m.withKernel k)

/-- A call of a process needs one to run, and changes the kernel only. -/
theorem userCall_eq_some {m m' : Machine} {r : Option Kernel} (h : m.userCall r = some m') :
    ∃ k, r = some k ∧ m.running ≠ none ∧ m' = m.withKernel k := by
  unfold userCall at h
  split_ifs at h with hr
  obtain ⟨k, hk, rfl⟩ := Option.map_eq_some_iff.1 h
  exact ⟨k, hk, hr, rfl⟩

/-- An exit needs a process to run, and resumes a caller. -/
theorem exit_eq_some {m m' : Machine} {r : Option (Kernel.Frame × Kernel)}
    (h : m.exit r = some m') :
    ∃ frame k, r = some (frame, k) ∧ m.running ≠ none ∧ m.resume frame k = some m' := by
  unfold exit at h
  split_ifs at h with hr
  obtain ⟨⟨frame, k⟩, hk, h⟩ := Option.bind_eq_some_iff.1 h
  exact ⟨frame, k, hk, hr, h⟩

/-- Control returns to a frame, the kernel is as the exit left it. -/
theorem resume_kernel {m m' : Machine} {frame : Kernel.Frame} {k : Kernel}
    (h : m.resume frame k = some m') : m'.kernel = k := by
  unfold resume at h
  split at h
  · exact absurd h (by simp)
  · obtain rfl := Option.some.inj h
    rfl

/-- A failing `execute` returns with the interrupt flag changed at most. -/
theorem execute_eq_some {img : Image} {m m' : Machine} {frame : Kernel.ExecFrame}
    {command : CString} (h : m.execute img frame command = some m') :
    (∃ k b, m.kernel.execute img frame command = some (.fail, k) ∧
        m' = m.withKernel (m.kernel.setInterruptFlag b)) ∨
      ∃ pid target k, m.kernel.execute img frame command = some (.iret pid target, k) ∧
        m.kernel.Starts frame command pid k ∧ m' = m.enter ⟨⟨frame.esp, frame.ebp⟩, pid⟩ k := by
  unfold execute at h
  cases hk : m.kernel.execute img frame command with
  | none => simp [hk] at h
  | some r =>
    rcases Kernel.execute_cases hk with rfl | ⟨pid, target, k, rfl, hs⟩ | ⟨_, _, _, _, rfl, -⟩
    · simp only [hk, Option.some.injEq] at h
      subst h
      left
      split_ifs
      · exact ⟨_, false, rfl, rfl⟩
      · exact ⟨_, true, rfl, rfl⟩
    · simp only [hk, Option.some.injEq] at h
      exact Or.inr ⟨pid, target, k, rfl, hs, h.symm⟩
    · simp [hk] at h

/-- What the two exits compute. -/
inductive ExitCall (k : Kernel) : Event → Option (Kernel.Frame × Kernel) → Prop
  | halt (status : Byte) : ExitCall k (.halt status) (k.halt status)
  | haltException : ExitCall k .haltException k.haltException

/-- Both ways out restore the parent's context. -/
theorem ExitCall.exits {k k' : Kernel} {e : Event} {r : Option (Kernel.Frame × Kernel)}
    (h : ExitCall k e r) {frame : Kernel.Frame} (hr : r = some (frame, k')) :
    k.Exits frame k' := by
  cases h with
  | halt status => exact (Kernel.halt_exits hr).1
  | haltException => exact (Kernel.haltException_exits hr).1

theorem ExitCall.exitStatus {k k' : Kernel} {e : Event} {r : Option (Kernel.Frame × Kernel)}
    (h : ExitCall k e r) {frame : Kernel.Frame} (hr : r = some (frame, k')) :
    ExitStatus k e k' := by
  cases h with
  | halt status => exact .halt (Kernel.halt_exits hr).2
  | haltException => exact .haltException (Kernel.haltException_exits hr).2

/-- The system calls on descriptors. -/
inductive FdCall (img : Image) (k : Kernel) : Event → Kernel → Prop
  | open {filename : CString} {r : ℤ × Kernel} :
      k.sysOpen img filename.mem = some r → FdCall img k (.open filename) r.2
  | close {fd : ℤ} {r : ℤ × Kernel} : k.sysClose fd = some r → FdCall img k (.close fd) r.2
  | read {fd : ℤ} {buf : Word} {nbytes : ℤ} {r : Kernel.ReadResult} :
      k.sysRead img fd buf nbytes = some r → FdCall img k (.read fd buf nbytes) r.kernel
  | write {fd : ℤ} {buf : Option (ℕ → Byte)} {nbytes : ℤ} {r : ℤ × Kernel} :
      k.sysWrite fd buf nbytes = some r → FdCall img k (.write fd buf nbytes) r.2

/-- Every file call changes devices and the caller's descriptors only. -/
theorem FdCall.fdSteps {img : Image} {k k' : Kernel} {e : Event} (h : FdCall img k e k') :
    Kernel.FdSteps k k' := by
  cases h with
  | «open» hr => exact Kernel.fdSteps_sysOpen hr
  | close hr => exact Kernel.fdSteps_sysClose hr
  | read hr => exact Kernel.fdSteps_sysRead hr
  | write hr => exact Kernel.fdSteps_sysWrite hr

/-- The steps that leave the processes alone. -/
inductive Quiet (k : Kernel) : Event → Kernel → Prop
  | interruptKeyboard (code : Byte) : Quiet k (.interruptKeyboard code) (k.interruptKeyboard code)
  | interruptRtc : Quiet k .interruptRtc k.interruptRtc
  | switchVid (target : Terminal) : Quiet k (.switchVid target) (k.switchVid target)

/-- A quiet event changes no context. -/
theorem Quiet.sameContext {k k' : Kernel} {e : Event} (h : Quiet k e k') : k.SameContext k' := by
  cases h with
  | interruptKeyboard code => exact (Kernel.sameProc_interruptKeyboard code k).sameContext
  | interruptRtc => exact .of_eq rfl rfl
  | switchVid target => exact (Kernel.sameProc_switchVid target k).sameContext

theorem Quiet.proc {k k' : Kernel} {e : Event} (h : Quiet k e k') : k'.proc = k.proc := by
  cases h with
  | interruptKeyboard code => exact (Kernel.sameProc_interruptKeyboard code k).proc
  | interruptRtc => rfl
  | switchVid target => exact (Kernel.sameProc_switchVid target k).proc

/-- What a step can be. -/
inductive StepCases (img : Image) (m : Machine) : Event → Machine → Prop
  | fail {frame : Kernel.ExecFrame} {command : CString} {k : Kernel} {b : Bool} :
      m.kernel.execute img frame command = some (.fail, k) →
      StepCases img m (.execute frame command) (m.withKernel (m.kernel.setInterruptFlag b))
  | start {frame : Kernel.ExecFrame} {command : CString} {pid target : Word} {k : Kernel} :
      m.kernel.execute img frame command = some (.iret pid target, k) →
      m.kernel.Starts frame command pid k →
      StepCases img m (.execute frame command) (m.enter ⟨⟨frame.esp, frame.ebp⟩, pid⟩ k)
  | exit {e : Event} {r : Option (Kernel.Frame × Kernel)} {m' : Machine} :
      ExitCall m.kernel e r → m.exit r = some m' → StepCases img m e m'
  | fdCall {e : Event} {k : Kernel} :
      m.running ≠ none → FdCall img m.kernel e k → StepCases img m e (m.withKernel k)
  | vidmap {screenStart : Word} : m.running ≠ none →
      StepCases img m (.vidmap screenStart) (m.withKernel (m.kernel.vidmap screenStart).2.2)
  | switch (frame : Kernel.SwitchFrame) :
      StepCases img m (.contextSwitch frame) (m.withKernel (m.kernel.interruptPit frame))
  | quiet {e : Event} {k : Kernel} : Quiet m.kernel e k → StepCases img m e (m.withKernel k)

/-- A step is an `execute`, an exit, a file call, a `vidmap`, a switch or a quiet event. -/
theorem step_cases {img : Image} {m m' : Machine} {e : Event} (h : m.step img e = some m') :
    StepCases img m e m' := by
  cases e with
  | execute frame command =>
    rcases execute_eq_some h with ⟨k, b, hexec, rfl⟩ | ⟨pid, target, k, hexec, hs, rfl⟩
    · exact .fail hexec
    · exact .start hexec hs
  | halt status => exact .exit (.halt status) h
  | haltException => exact .exit .haltException h
  | «open» filename =>
    obtain ⟨k, hk, hrun, rfl⟩ := userCall_eq_some h
    obtain ⟨r, hr, rfl⟩ := Option.map_eq_some_iff.1 hk
    exact .fdCall hrun (.open hr)
  | close fd =>
    obtain ⟨k, hk, hrun, rfl⟩ := userCall_eq_some h
    obtain ⟨r, hr, rfl⟩ := Option.map_eq_some_iff.1 hk
    exact .fdCall hrun (.close hr)
  | read fd buf nbytes =>
    obtain ⟨k, hk, hrun, rfl⟩ := userCall_eq_some h
    obtain ⟨r, hr, rfl⟩ := Option.map_eq_some_iff.1 hk
    exact .fdCall hrun (.read hr)
  | write fd buf nbytes =>
    obtain ⟨k, hk, hrun, rfl⟩ := userCall_eq_some h
    obtain ⟨r, hr, rfl⟩ := Option.map_eq_some_iff.1 hk
    exact .fdCall hrun (.write hr)
  | vidmap screenStart =>
    obtain ⟨k, hk, hrun, rfl⟩ := userCall_eq_some h
    obtain rfl := Option.some.inj hk
    exact .vidmap hrun
  | contextSwitch frame =>
    obtain rfl := Option.some.inj h
    exact .switch frame
  | interruptKeyboard code =>
    obtain rfl := Option.some.inj h
    exact .quiet (.interruptKeyboard code)
  | interruptRtc =>
    obtain rfl := Option.some.inj h
    exact .quiet .interruptRtc
  | switchVid target =>
    obtain rfl := Option.some.inj h
    exact .quiet (.switchVid target)

/-- The same for the contexts alone : only three kinds of step change them. -/
theorem step_context {img : Image} {m m' : Machine} {e : Event} (h : m.step img e = some m') :
    ContextStep m e m' := by
  cases step_cases h with
  | fail _ => exact .stay ⟨rfl, rfl, rfl, rfl, rfl, fun _ => rfl⟩
  | start _ hs => exact .start hs
  | exit hcall hm' =>
    obtain ⟨frame, k, hk, hr, hres⟩ := exit_eq_some hm'
    exact .exit (hcall.exitStatus hk) hr (hcall.exits hk) hres
  | fdCall _ hcall => exact .stay hcall.fdSteps.onlyFds.context
  | vidmap _ => exact .stay (Kernel.sameContext_vidmap _ _)
  | switch frame => exact .switch frame
  | quiet hq => exact .stay hq.sameContext

/-! ## Control stacks -/

/-- The calls under way after `execute` has started a process. -/
theorem mem_calls_enter {m : Machine} {call c : Call} {k : Kernel} {t : Terminal} :
    c ∈ (m.enter call k).calls t ↔ t = m.terminal ∧ c = call ∨ c ∈ m.calls t := by
  rcases eq_or_ne t m.terminal with rfl | ht
  · simp [enter, stack]
  · simp [enter, ht]

theorem mem_pids_enter {m : Machine} {call : Call} {k : Kernel} {t : Terminal} {p : Word} :
    p ∈ (m.enter call k).pids t ↔ t = m.terminal ∧ p = call.child ∨ p ∈ m.pids t := by
  rcases eq_or_ne t m.terminal with rfl | ht
  · simp [pids, enter, stack]
  · simp [pids, enter, ht]

/-- The new process is on top of its terminal's chain. -/
theorem enter_pids_self (m : Machine) (call : Call) (k : Kernel) :
    (m.enter call k).pids m.terminal = call.child :: m.pids m.terminal := by
  simp only [pids, enter, Function.update_self, List.map_cons, stack]

/-- The other chains are as they were. -/
theorem enter_pids_of_ne (m : Machine) (call : Call) (k : Kernel) {t : Terminal}
    (ht : t ≠ m.terminal) : (m.enter call k).pids t = m.pids t := by
  simp only [pids, enter, Function.update_of_ne ht]

/-- The processes of the new control stacks. -/
theorem pids_enter (m : Machine) (call : Call) (k : Kernel) :
    (m.enter call k).pids =
      Function.update m.pids m.terminal (call.child :: m.pids m.terminal) := by
  funext t
  rcases eq_or_ne t m.terminal with rfl | ht
  · rw [Function.update_self, enter_pids_self]
  · rw [Function.update_of_ne ht, enter_pids_of_ne _ _ _ ht]

/-! ## What the invariant says about a running process -/

/-- The frame an exit resumes is part of the PCB's link. -/
theorem frame_of_link {p p' : Pcb} (h : p'.link = p.link) :
    (⟨p'.parentEsp, p'.parentEbp⟩ : Kernel.Frame) = ⟨p.parentEsp, p.parentEbp⟩ := by
  simp only [Pcb.link, PcbLink.mk.injEq] at h
  rw [h.2.2.2.1, h.2.2.2.2.1]

namespace Coherent

variable {m m' : Machine}

/-- A process in a chain has one of the eight PCBs. -/
theorem lt (h : m.Coherent) {t : Terminal} {p : Word} (hp : p ∈ m.pids t) : p < 8 :=
  (h.saved t p hp).lt

/-- Its PCB is in use. -/
theorem use (h : m.Coherent) {t : Terminal} {p : Word} (hp : p ∈ m.pids t) :
    (m.kernel.proc.pcb p).use = 1 :=
  (h.saved t p hp).use

/-- Where user code runs, it is that of the current process, on top of the control stack. -/
theorem stack_eq (h : m.Coherent) (hr : m.running ≠ none) :
    ∃ c rest, m.stack = c :: rest ∧ c.child = m.kernel.cur.curPid ∧
      m.kernel.cur.curPid ≠ noPid ∧ m.kernel.Saved m.terminal c.child := by
  cases hs : m.stack with
  | nil => exact absurd (by rw [running, hs]; rfl) hr
  | cons c rest =>
    have hpids : m.pids m.terminal = c.child :: rest.map Call.child := by
      rw [pids, show m.calls m.terminal = c :: rest from hs, List.map_cons]
    have hpath := h.path m.terminal
    rw [hpids] at hpath
    obtain ⟨hc, hne, -⟩ := hpath.of_cons
    refine ⟨c, rest, rfl, hc.symm, hne, h.saved m.terminal c.child ?_⟩
    rw [hpids]
    exact List.mem_cons_self

/-- The current process of the scheduled terminal runs, if there is one. -/
theorem running_eq (h : m.Coherent) :
    m.running = if m.kernel.cur.curPid = noPid then none else some m.kernel.cur.curPid := by
  by_cases hr : m.running = none
  · have hpids : m.pids m.terminal = [] := by
      rw [running, Option.map_eq_none_iff, List.head?_eq_none_iff] at hr
      rw [pids, show m.calls m.terminal = [] from hr, List.map_nil]
    have hp : m.kernel.cur.curPid = noPid := (h.path m.terminal).head_eq_stop_iff.2 hpids
    rw [hr, if_pos hp]
  · obtain ⟨c, rest, hs, hc, hne, -⟩ := h.stack_eq hr
    rw [if_neg hne, ← hc, running, hs, List.head?_cons, Option.map_some]

/-- An exit jumps into the innermost pending call. -/
theorem resume_eq (h : m.Coherent) (hr : m.running ≠ none) {frame : Kernel.Frame} {k : Kernel}
    (hx : m.kernel.Exits frame k) :
    ∃ c rest, m.stack = c :: rest ∧ c.child = m.kernel.cur.curPid ∧
      m.resume frame k = some ⟨k, Function.update m.calls m.terminal rest⟩ := by
  obtain ⟨c, rest, hs, hc, -, -⟩ := h.stack_eq hr
  refine ⟨c, rest, hs, hc, ?_⟩
  have hmem : c ∈ m.calls m.terminal := by
    rw [show m.calls m.terminal = c :: rest from hs]
    exact List.mem_cons_self
  have hframe : c.frame = frame := by rw [hx.frame, h.frame _ c hmem, hc]
  rw [resume, hs, List.dropWhile_cons_of_neg (by simpa using hframe)]

/-! ## Each kind of step keeps it -/

/-- What changes no context keeps the machine coherent. -/
theorem stay (h : m.Coherent) {k : Kernel} (hk : m.kernel.SameContext k) :
    (m.withKernel k).Coherent := by
  refine ⟨h.toChained.stay hk, fun t c hc => ?_⟩
  exact (h.frame t c hc).trans (frame_of_link (hk.link c.child)).symm

/-- So does a process that starts. -/
theorem start (h : m.Coherent) {frame : Kernel.ExecFrame} {command : CString} {pid : Word}
    {k : Kernel} (hs : m.kernel.Starts frame command pid k) :
    (m.enter ⟨⟨frame.esp, frame.ebp⟩, pid⟩ k).Coherent := by
  constructor
  · rw [pids_enter]
    exact h.toChained.start hs
  · intro t c hc
    show c.frame = ⟨(k.proc.pcb c.child).parentEsp, (k.proc.pcb c.child).parentEbp⟩
    rcases mem_calls_enter.1 hc with ⟨-, rfl⟩ | hold
    · rw [hs.pcb_self]
      rfl
    · have hfree := h.not_mem_of_use_eq_zero (Kernel.getAvailPcb_eq_some hs.avail).2 t
      have hne : c.child ≠ pid := by
        rintro rfl
        exact hfree (List.mem_map_of_mem hold)
      rw [hs.pcb_of_ne hne]
      exact h.frame t c hold

/-- The process on top of the scheduled terminal's stack is nowhere else. -/
theorem ne_top (h : m.Coherent) {c : Call} {rest : List Call} (hs : m.stack = c :: rest)
    {t : Terminal} {d : Call} (hd : d ∈ Function.update m.calls m.terminal rest t) :
    d ∈ m.calls t ∧ d.child ≠ c.child := by
  have hcalls : m.calls m.terminal = c :: rest := hs
  have htop : c.child ∈ m.pids m.terminal := by simp [pids, hcalls]
  rcases eq_or_ne t m.terminal with rfl | ht
  · rw [Function.update_self] at hd
    have hnodup := (h.path m.terminal).nodup
    rw [pids, hcalls, List.map_cons, List.nodup_cons] at hnodup
    refine ⟨hcalls ▸ List.mem_cons_of_mem _ hd, fun heq => hnodup.1 ?_⟩
    exact heq ▸ List.mem_map_of_mem hd
  · rw [Function.update_of_ne ht] at hd
    refine ⟨hd, fun heq => h.disjoint _ _ ht.symm _ htop ?_⟩
    exact heq ▸ List.mem_map_of_mem hd

/-- So does an exit, which resumes the call that started the process. -/
theorem exit (h : m.Coherent) (hr : m.running ≠ none) {frame : Kernel.Frame} {k : Kernel}
    (hx : m.kernel.Exits frame k) (hm' : m.resume frame k = some m') : m'.Coherent := by
  obtain ⟨c, rest, hs, hc, hres⟩ := h.resume_eq hr hx
  obtain rfl := Option.some.inj (hm'.symm.trans hres)
  obtain ⟨_, _, -, -, hne, -⟩ := h.stack_eq hr
  have hcalls : m.calls m.terminal = c :: rest := hs
  constructor
  · have hpids : Machine.pids ⟨k, Function.update m.calls m.terminal rest⟩ =
        Function.update m.pids m.terminal (m.pids m.terminal).tail := by
      funext t
      show (Function.update m.calls m.terminal rest t).map Call.child = _
      rcases eq_or_ne t m.terminal with rfl | ht
      · rw [Function.update_self, Function.update_self, pids, hcalls, List.map_cons, List.tail_cons]
      · rw [Function.update_of_ne ht, Function.update_of_ne ht, pids]
    rw [hpids]
    exact h.toChained.exit hne hx
  · intro t d hd
    obtain ⟨hd', hne'⟩ := h.ne_top hs hd
    rw [hc] at hne'
    show d.frame = ⟨(k.proc.pcb d.child).parentEsp, (k.proc.pcb d.child).parentEbp⟩
    rw [h.frame t d hd', frame_of_link (hx.link_of_ne hne')]

/-- So does the PIT's interrupt. -/
theorem switch (h : m.Coherent) (frame : Kernel.SwitchFrame) :
    (m.withKernel (m.kernel.interruptPit frame)).Coherent := by
  have hchained := h.toChained.switch frame
  have hpcb := Kernel.interruptPit_pcb frame m.kernel
  generalize m.kernel.interruptPit frame = k at hchained hpcb
  refine ⟨hchained, fun t c hc => (h.frame t c hc).trans ?_⟩
  rw [withKernel, hpcb]

end Coherent

/-- Before the boot loop every terminal is without a process. -/
theorem coherent_boot {m : Machine} (h : m.Booted) : m.Coherent := by
  obtain ⟨k, -, rfl⟩ := h
  exact ⟨k.chained_boot, fun t c hc => absurd hc List.not_mem_nil⟩

/-- Every step keeps the contexts coherent. -/
theorem coherent_step {img : Image} {m m' : Machine} {e : Event} (h : m.Coherent)
    (hstep : m.step img e = some m') : m'.Coherent := by
  cases step_context hstep with
  | start hs => exact h.start hs
  | exit _ hr hx hm' => exact h.exit hr hx hm'
  | switch frame => exact h.switch frame
  | stay hk => exact h.stay hk

/-- Every reachable machine is coherent. -/
theorem Reachable.coherent {img : Image} {m : Machine} (h : m.Reachable img) : m.Coherent :=
  Transition.Reachable.invariant (fun _ => coherent_boot) (fun _ _ _ hc _ => coherent_step hc) h

/-- A run without reads. -/
theorem allEvents_ownReads {img : Image} {step : Machine → Event → Option Machine} {m : Machine}
    {es : List Event} (h : ∀ e ∈ es, e.isRead = false) :
    Transition.AllEvents step (OwnReads img) m es := by
  refine .of_mem fun e he m => ?_
  cases e with
  | read fd buf nbytes => exact Bool.noConfusion (h _ he)
  | _ => trivial

/-- A step that starts a process, as a step of the machine. -/
theorem step_execute {img : Image} {frame : Kernel.ExecFrame} {command : CString}
    (hx : Kernel.Executable img frame command) (m : Machine) {pid : Word}
    (hp : m.kernel.getAvailPcb = some pid) :
    ∃ k, m.kernel.Starts frame command pid k ∧
      m.step img (.execute frame command) = some (m.enter ⟨⟨frame.esp, frame.ebp⟩, pid⟩ k) := by
  rcases Kernel.execute_of_executable hx m.kernel with ⟨-, hnone⟩ | ⟨q, target, k, hexec, hs⟩
  · rw [hp] at hnone
    exact absurd hnone (by simp)
  · obtain rfl := Option.some.inj (hp.symm.trans hs.avail)
    refine ⟨k, hs, ?_⟩
    simp only [step, execute, hexec]

theorem running_enter (m : Machine) (call : Call) {k : Kernel}
    (hk : k.proc.scheduleIndex = m.terminal) : (m.enter call k).running = some call.child := by
  have hterm : (m.enter call k).terminal = m.terminal := hk
  simp only [running, stack, hterm]
  simp [enter]

/-- The first boot loop starts a shell as process 0. -/
theorem start_first_shell (frame : Kernel.ExecFrame) :
    ∃ k, first.kernel.Starts frame Kernel.shellCommand 0 k ∧
      first.step Kernel.shellImage (.execute frame Kernel.shellCommand) =
        some (first.enter ⟨⟨frame.esp, frame.ebp⟩, 0⟩ k) :=
  step_execute (Kernel.shell_executable frame) first (by rfl)

/-- The first shell runs as process 0. -/
theorem exists_first_shell (frame : Kernel.ExecFrame) :
    ∃ m : Machine, first.step Kernel.shellImage (.execute frame Kernel.shellCommand) = some m ∧
      m.Reachable Kernel.shellImage ∧ m.running = some 0 := by
  obtain ⟨k, hs, hstep⟩ := start_first_shell frame
  have hm : Machine.Reachable Kernel.shellImage (first.enter ⟨⟨frame.esp, frame.ebp⟩, 0⟩ k) :=
    .step (e := .execute frame Kernel.shellCommand) (.init first_booted) trivial hstep
  exact ⟨_, hstep, hm, running_enter _ _ hs.scheduleIndex⟩

/-- Behind the first shell PCB 1 is the next. -/
theorem getAvailPcb_first_shell {frame : Kernel.ExecFrame} {k : Kernel}
    (hs : first.kernel.Starts frame Kernel.shellCommand 0 k) : k.getAvailPcb = some 1 := by
  have h0 : (k.proc.pcb 0).use = 1 := by
    rw [hs.pcb_self]
    rfl
  have h1 : (k.proc.pcb 1).use = 0 := by
    rw [hs.pcb_of_ne (by decide)]
    rfl
  simp [Kernel.getAvailPcb, h0, h1]

/-- The first shell starts another one as process 1. -/
theorem exists_second_shell {m : Machine} {frame : Kernel.ExecFrame}
    (hm : first.step Kernel.shellImage (.execute frame Kernel.shellCommand) = some m) :
    ∃ m' : Machine, m.step Kernel.shellImage (.execute frame Kernel.shellCommand) = some m' ∧
      m'.running = some 1 := by
  obtain ⟨k, hs, hstep⟩ := start_first_shell frame
  obtain rfl := Option.some.inj (hstep.symm.trans hm)
  obtain ⟨k', hs', hstep'⟩ := step_execute (Kernel.shell_executable frame)
    (first.enter ⟨⟨frame.esp, frame.ebp⟩, 0⟩ k) (getAvailPcb_first_shell hs)
  exact ⟨_, hstep', running_enter _ _ hs'.scheduleIndex⟩

/-! ## The running process -/

/-- The context of process `p` is installed. -/
structure Installed (k : Kernel) (p : Word) : Prop where
  curPid : k.cur.curPid = p
  curFdPtr : k.cur.curFdPtr = .fdTable p
  esp0 : k.proc.tssEsp0 = Kernel.getEsp0 p
  program : k.paging.pdt exec = 0x00800087 + 0x400000 * p
  lt : p < 8
  use : (k.proc.pcb p).use = 1

/-- The context the kernel holds is that of the process that runs. -/
theorem Coherent.installed {m : Machine} (h : m.Coherent) {p : Word} (hp : m.running = some p) :
    Installed m.kernel p := by
  obtain ⟨c, rest, hs, hc, hne, hsaved⟩ := h.stack_eq (by simp [hp])
  rw [running, hs, List.head?_cons, Option.map_some, Option.some.injEq] at hp
  subst hp
  rw [hc] at hsaved ⊢
  have hesp0 : m.kernel.proc.tssEsp0 = Kernel.getEsp0 m.kernel.cur.curPid :=
    (Kernel.kernelStack_self (t := m.terminal) rfl).symm.trans (h.esp0 m.terminal hne)
  exact ⟨rfl, h.curFdPtr m.terminal hne, hesp0, h.program hne, hsaved.lt, hsaved.use⟩

theorem exists_ofNat {p : Word} (h : p < 8) : ∃ i < 8, p = UInt32.ofNat i :=
  ⟨p.toNat, UInt32.lt_iff_toNat_lt.1 h, UInt32.ofNat_toNat.symm⟩

/-! ## Live processes -/

/-- The processes of the three terminals. -/
def live (m : Machine) : List Word :=
  Kernel.members m.pids

/-- A live process is in some terminal's chain. -/
theorem mem_live {m : Machine} {p : Word} : p ∈ m.live ↔ ∃ t, p ∈ m.pids t :=
  Kernel.mem_members

/-- Within a terminal's slice the same process runs. -/
theorem running_withKernel {m : Machine} {k : Kernel} (h : k.proc.scheduleIndex = m.terminal) :
    (m.withKernel k).running = m.running := by
  have hterm : (m.withKernel k).terminal = m.terminal := h
  rw [running, running, stack, stack, hterm]
  rfl

theorem live_withKernel (m : Machine) (k : Kernel) : (m.withKernel k).live = m.live :=
  rfl

/-- `execute` adds one live process. -/
theorem mem_live_enter {m : Machine} {call : Call} {k : Kernel} {p : Word}
    (h : p ∈ (m.enter call k).live) : p = call.child ∨ p ∈ m.live := by
  obtain ⟨t, ht⟩ := mem_live.1 h
  rcases mem_pids_enter.1 ht with ⟨-, hp⟩ | hp
  · exact Or.inl hp
  · exact Or.inr (mem_live.2 ⟨t, hp⟩)

end Machine

end MpOS
