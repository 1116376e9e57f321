import MpOS.DescriptorTable

/-!
# Chains, tables and control stacks

The chains of processes, and the tables of the processes on them, outlast every step, a load
that faults included (`Tabled`). Such a load may jump to a stale frame, and then the control
stack of the terminal is shorter than its chain. It is never longer (`Nested`), so wherever
user code runs there is a current process, with the current table.
-/

namespace MpOS

namespace Kernel

variable {k k' : Kernel} {chain : Terminal → List Word} {opens : Word → Opens} {p : Word}

/-- The chains, made of processes whose tables obey the law. -/
structure Tabled (k : Kernel) (chain : Terminal → List Word) (opens : Word → Opens) : Prop
    extends k.Chained chain where
  table : ∀ t, ∀ p ∈ chain t, TableLaw (k.table p) (opens p)

namespace Tabled

/-- The descriptor table of the current process is the current one. -/
theorem current (h : k.Tabled chain opens) (hp : k.cur.curPid ≠ noPid) :
    k.cur.curFdPtr = .fdTable k.cur.curPid ∧
      TableLaw (k.table k.cur.curPid) (opens k.cur.curPid) := by
  obtain ⟨rest, hchain, -⟩ := h.eq_cons hp
  refine ⟨h.curFdPtr k.proc.scheduleIndex hp, h.table k.proc.scheduleIndex _ ?_⟩
  rw [hchain]
  exact List.mem_cons_self

/-- What changes no context and no table keeps the chains. -/
theorem stay (h : k.Tabled chain opens) (hk : k.SameContext k')
    (ht : ∀ q, k'.table q = k.table q) : k'.Tabled chain opens := by
  refine ⟨h.toChained.stay hk, fun t q hq => ?_⟩
  rw [ht]
  exact h.table t q hq

/-- A call of the current process that changes no other table. -/
theorem fdCall (h : k.Tabled chain opens) (hp : k.cur.curPid ≠ noPid) (hk : FdSteps k k')
    {opens' : Opens} (hself : TableLaw (k'.table k.cur.curPid) opens') :
    k'.Tabled chain (Function.update opens k.cur.curPid opens') := by
  refine ⟨h.toChained.stay hk.onlyFds.context, fun t q hq => ?_⟩
  rcases eq_or_ne q k.cur.curPid with rfl | hne
  · rwa [Function.update_self]
  · have htable : k'.fds (.fdTable q) = k.fds (.fdTable q) := by
      refine hk.onlyFds.fds _ ?_
      rw [(h.current hp).1]
      exact fun heq => hne (FdPtr.fdTable.inj heq)
    rw [Function.update_of_ne hne]
    exact (congrArg (fun t => TableLaw t (opens q)) htable).mpr (h.table t q hq)

/-- `execute` puts the new process on top of the current chain, with a new table. -/
theorem start (h : k.Tabled chain opens) {frame : ExecFrame} {command : CString}
    (hs : k.Starts frame command p k') : k'.Tabled
      (Function.update chain k.proc.scheduleIndex (p :: chain k.proc.scheduleIndex))
      (Function.update opens p fun _ => none) := by
  refine ⟨h.toChained.start hs, fun t q hq => ?_⟩
  rcases eq_or_ne q p with rfl | hne
  · rw [Function.update_self, Kernel.table, hs.pcb_self]
    exact .initTable _
  · have hmem : q ∈ chain t := by
      rcases eq_or_ne t k.proc.scheduleIndex with rfl | ht
      · rw [Function.update_self] at hq
        exact (List.mem_cons.1 hq).resolve_left hne
      · rwa [Function.update_of_ne ht] at hq
    rw [Function.update_of_ne hne, Kernel.table, hs.pcb_of_ne hne]
    exact h.table t q hmem

/-- An exit takes it off again. -/
theorem exit (h : k.Tabled chain opens) (hp : k.cur.curPid ≠ noPid) {frame : Frame}
    (hx : k.Exits frame k') : k'.Tabled
      (Function.update chain k.proc.scheduleIndex (chain k.proc.scheduleIndex).tail) opens := by
  have hchained := h.toChained.exit hp hx
  refine ⟨hchained, fun t q hq => ?_⟩
  -- the PCB of the process that ends is free, so it is on no chain any more
  have hne : q ≠ k.cur.curPid := by
    rintro rfl
    exact hchained.not_mem_of_use_eq_zero hx.use_self t hq
  have hmem : q ∈ chain t := by
    rcases eq_or_ne t k.proc.scheduleIndex with rfl | ht
    · rw [Function.update_self] at hq
      exact List.mem_of_mem_tail hq
    · rwa [Function.update_of_ne ht] at hq
  have htable : k'.fds (.fdTable q) = k.fds (.fdTable q) := by
    refine hx.fds _ ?_
    rw [(h.current hp).1]
    exact fun heq => hne (FdPtr.fdTable.inj heq)
  exact (congrArg (fun t => TableLaw t (opens q)) htable).mpr (h.table t q hmem)

/-- A load that faults starts a process and ends it, so the chains are as they were. -/
theorem fault (h : k.Tabled chain opens) {frame : ExecFrame} {command : CString} {k₁ : Kernel}
    (hs : k.Starts frame command p k₁) {frame' : Frame}
    (hhalt : k₁.haltException = some (frame', k')) : k'.Tabled chain
      (Function.update opens p fun _ => none) := by
  have hcur : k₁.cur.curPid ≠ noPid := by
    rw [hs.cur_eq]
    exact ne_noPid (getAvailPcb_eq_some hs.avail).1
  have hexit := (h.start hs).exit hcur (haltException_exits hhalt).1
  rwa [hs.scheduleIndex, Function.update_self, List.tail_cons, Function.update_idem,
    Function.update_eq_self] at hexit

/-- A switch changes no chain. -/
theorem switch (h : k.Tabled chain opens) (frame : SwitchFrame) :
    (k.interruptPit frame).Tabled chain opens := by
  refine ⟨h.toChained.switch frame, fun t q hq => ?_⟩
  rw [Kernel.table, interruptPit_pcb]
  exact h.table t q hq

/-- At boot every chain is empty. -/
theorem boot (k : Kernel) (opens : Word → Opens) : k.boot.Tabled (fun _ => []) opens :=
  ⟨k.chained_boot, fun _ _ hq => absurd hq List.not_mem_nil⟩

end Tabled

end Kernel

namespace Machine

variable {img : Image} {m m' : Machine} {e : Event} {chain : Terminal → List Word}
  {opens : Word → Opens}

/-- A step is one of `step`, or a load that faults : it returns into its own call, or into a
pending one. -/
theorem faultStep_cases (h : m.faultStep img e = some m') : m.step img e = some m' ∨
    ∃ frame command pid frame' k₁ k, e = .execute frame command ∧
      m.kernel.Starts (m.kernel.staleFrame pid frame.magic) command pid k₁ ∧
      k₁.haltException = some (frame', k) ∧
      (m' = m.withKernel k ∨ m.resume frame' k = some m') := by
  cases e with
  | execute frame command =>
    rw [faultStep] at h
    split at h
    · rename_i frame' k hexec
      rcases Kernel.execute_cases hexec with heq | ⟨_, _, _, heq, -⟩ |
        ⟨pid, _, k₁, _, heq, hs, hhalt⟩
      · exact absurd (Prod.mk.inj heq).1 (by simp)
      · exact absurd (Prod.mk.inj heq).1 (by simp)
      · obtain ⟨hframe, rfl⟩ := Prod.mk.inj heq
        obtain rfl := Kernel.ExecResult.fault.inj hframe
        refine Or.inr ⟨frame, command, pid, frame', k₁, k, rfl, hs, hhalt, ?_⟩
        split_ifs at h with hown
        · exact Or.inl (Option.some.inj h).symm
        · exact Or.inr h
    · exact Or.inl h
  | _ => exact Or.inl h

/-- A jump into a pending call takes that call and those inside it off the control stack. -/
theorem resume_eq_some {frame : Kernel.Frame} {k : Kernel} (h : m.resume frame k = some m') :
    ∃ rest, rest.length < m.stack.length ∧
      m' = ⟨k, Function.update m.calls m.terminal rest⟩ := by
  unfold resume at h
  split at h
  · exact absurd h (by simp)
  · rename_i c rest hdrop
    have hlen := (List.dropWhile_sublist (l := m.stack) fun c => c.frame ≠ frame).length_le
    rw [hdrop, List.length_cons] at hlen
    exact ⟨rest, hlen, (Option.some.inj h).symm⟩

/-- The chains of the kernel, none of them shorter than the control stack of its terminal. -/
structure Nested (m : Machine) (chain : Terminal → List Word) (opens : Word → Opens) : Prop
    extends m.kernel.Tabled chain opens where
  depth : ∀ t, (m.calls t).length ≤ (chain t).length

namespace Nested

/-- Where user code runs there is a current process. -/
theorem curPid_ne (h : m.Nested chain opens) (hr : m.running ≠ none) :
    m.kernel.cur.curPid ≠ noPid := by
  intro hp
  have hnil : chain m.terminal = [] := (h.path m.terminal).head_eq_stop_iff.1 hp
  have hlen := h.depth m.terminal
  rw [hnil, List.length_nil, Nat.le_zero, List.length_eq_zero_iff] at hlen
  exact hr (by rw [running, stack, hlen]; rfl)

/-- A change of the kernel alone. -/
theorem withKernel (h : m.Nested chain opens) {k : Kernel} {opens' : Word → Opens}
    (hk : k.Tabled chain opens') : (m.withKernel k).Nested chain opens' :=
  ⟨hk, h.depth⟩

/-- A call that starts a process and the process itself come on top together. -/
theorem start (h : m.Nested chain opens) {frame : Kernel.ExecFrame} {command : CString}
    {p : Word} {k : Kernel} (hs : m.kernel.Starts frame command p k) (call : Call) :
    (m.enter call k).Nested (Function.update chain m.terminal (p :: chain m.terminal))
      (Function.update opens p fun _ => none) := by
  refine ⟨h.toTabled.start hs, fun t => ?_⟩
  rw [enter]
  rcases eq_or_ne t m.terminal with rfl | ht
  · simpa only [Function.update_self, List.length_cons, Nat.add_le_add_iff_right, stack] using
      h.depth m.terminal
  · simpa only [Function.update_of_ne ht] using h.depth t

/-- An exit takes one process off the chain, and a call at least off the control stack. -/
theorem exit (h : m.Nested chain opens) (hr : m.running ≠ none) {frame : Kernel.Frame}
    {k : Kernel} (hx : m.kernel.Exits frame k) (hm' : m.resume frame k = some m') :
    m'.Nested (Function.update chain m.terminal (chain m.terminal).tail) opens := by
  obtain ⟨rest, hlen, rfl⟩ := resume_eq_some hm'
  refine ⟨h.toTabled.exit (h.curPid_ne hr) hx, fun t => ?_⟩
  rcases eq_or_ne t m.terminal with rfl | ht
  · have hdepth := h.depth m.terminal
    rw [stack] at hlen
    simp only [Function.update_self, List.length_tail]
    omega
  · simpa only [Function.update_of_ne ht] using h.depth t

/-- A load that faults leaves the chain as it was. -/
theorem fault (h : m.Nested chain opens) {frame : Kernel.ExecFrame} {command : CString}
    {p : Word} {k₁ k : Kernel} (hs : m.kernel.Starts frame command p k₁) {frame' : Kernel.Frame}
    (hhalt : k₁.haltException = some (frame', k))
    (hm' : m' = m.withKernel k ∨ m.resume frame' k = some m') :
    m'.Nested chain (Function.update opens p fun _ => none) := by
  have hk := h.toTabled.fault hs hhalt
  rcases hm' with rfl | hres
  · exact h.withKernel hk
  · obtain ⟨rest, hlen, rfl⟩ := resume_eq_some hres
    refine ⟨hk, fun t => ?_⟩
    rcases eq_or_ne t m.terminal with rfl | ht
    · have hdepth := h.depth m.terminal
      rw [stack] at hlen
      simp only [Function.update_self]
      omega
    · simpa only [Function.update_of_ne ht] using h.depth t

/-- Every step of `step` keeps the control stacks nested in some chains. -/
theorem step (h : m.Nested chain opens) (hstep : m.step img e = some m') :
    ∃ chain' opens', m'.Nested chain' opens' := by
  cases step_cases hstep with
  | fail _ => exact ⟨_, _, h.withKernel (h.toTabled.stay ⟨rfl, rfl, rfl, rfl, rfl, fun _ => rfl⟩
      fun _ => rfl)⟩
  | start _ hs => exact ⟨_, _, h.start hs _⟩
  | exit hcall hm' =>
    obtain ⟨frame, k, hk, hr, hres⟩ := exit_eq_some hm'
    exact ⟨_, _, h.exit hr (hcall.exits hk) hres⟩
  | fdCall hr hcall =>
    have hp := h.curPid_ne hr
    obtain ⟨hptr, hlaw⟩ := h.toTabled.current hp
    have hsteps := hcall.fdSteps
    cases hcall with
    | «open» hopen =>
      exact ⟨_, _, h.withKernel (h.toTabled.fdCall hp hsteps (Kernel.sysOpen_law hptr hlaw hopen))⟩
    | @close fd r hclose =>
      obtain ⟨ret, k', hclose', hlaw', -⟩ := Kernel.sysClose_spec hptr hlaw fd
      obtain rfl := Option.some.inj (hclose.symm.trans hclose')
      exact ⟨_, _, h.withKernel (h.toTabled.fdCall hp hsteps hlaw')⟩
    | read hread =>
      exact ⟨_, _, h.withKernel (h.toTabled.fdCall hp hsteps
        (hlaw.congr (Kernel.sameUse_sysRead hptr hread)))⟩
    | write hwrite =>
      exact ⟨_, _, h.withKernel (h.toTabled.stay hsteps.onlyFds.context
        (table_eq_of_proc (Kernel.proc_sysWrite hwrite)))⟩
  | vidmap _ =>
    exact ⟨_, _, h.withKernel (h.toTabled.stay (Kernel.sameContext_vidmap _ _)
      (Kernel.table_vidmap _ m.kernel))⟩
  | switch frame => exact ⟨_, _, h.withKernel (h.toTabled.switch frame)⟩
  | quiet hq =>
    exact ⟨_, _, h.withKernel (h.toTabled.stay hq.sameContext (table_eq_of_proc hq.proc))⟩

/-- So does a load that faults. -/
theorem faultStep (h : m.Nested chain opens) (hstep : m.faultStep img e = some m') :
    ∃ chain' opens', m'.Nested chain' opens' := by
  rcases faultStep_cases hstep with hstep | ⟨_, _, _, _, _, _, -, hs, hhalt, hm'⟩
  · exact h.step hstep
  · exact ⟨_, _, h.fault hs hhalt hm'⟩

end Nested

/-- Before the boot loop there is no process and no pending call. -/
theorem nested_boot (h : m.Booted) (opens : Word → Opens) : m.Nested (fun _ => []) opens := by
  obtain ⟨k, -, rfl⟩ := h
  exact ⟨.boot k opens, fun _ => le_rfl⟩

end Machine

end MpOS
