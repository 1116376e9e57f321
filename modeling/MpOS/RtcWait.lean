import MpOS.RtcFrame

/-!
# Waiting for the RTC

`rtc_read` clears `flag_rtc` and spins until the interrupt sets it. The timer takes the
processor from it in the middle of the loop, and the other terminals run. In `RtcMachine`
the call is its two ends, and everything else the kernel does can come between them.

Nothing but the RTC's own variables tells such a run from one in which each call is done
at once, where it returns (`run_refines`). So what holds of all runs of the machine holds
of these too. But the flag is one for all terminals. A tick reaches a reader only if no
other reader begins to wait, and nobody opens the RTC, before the reader gets the
processor back (`finish_iff`).
-/

namespace MpOS

/-- The arguments of a call of `read` that waits in `rtc_read`. -/
structure RtcCall where
  fd : ℤ
  buf : Word
  nbytes : ℤ
  deriving DecidableEq

/-- The machine, and the calls of `rtc_read` that wait on its terminals. -/
structure RtcMachine where
  machine : Machine
  waiting : Terminal → Option RtcCall

/-- A step of the machine, the start of a call of `rtc_read` by the running process, or the return
of the one that the scheduled terminal waits in. -/
inductive RtcEvent
  | sys (e : Event)
  | begin (call : RtcCall)
  | finish

/-- The events that can come while the scheduled terminal waits. -/
def Event.fromDevice : Event → Bool
  | .contextSwitch _ => true
  | .interruptKeyboard _ => true
  | .interruptRtc => true
  | .switchVid _ => true
  | _ => false

namespace Kernel

/-- Set `flag_rtc`. -/
def setFlagRtc (k : Kernel) (n : ℕ) : Kernel :=
  { k with rtc := { k.rtc with flagRtc := n } }

theorem sysRead_rtc {k : Kernel} {fd : ℤ} {buf : Word} (h : ReadsRtc k.curFd fd buf) (img : Image)
    (nbytes : ℤ) : k.sysRead img fd buf nbytes = some k.rtcRead := by
  obtain ⟨h0, h7, hbuf, hf, h1, hops⟩ := h
  rw [sysRead, if_neg (by omega), if_neg hbuf, if_neg hf, if_neg h1, hops, Option.bind_some]
  exact congrArg (fun k => some (ReadResult.mk 0 [] k)) (storeUser_nil _ buf)

end Kernel

namespace RtcMachine

variable (img : Image) (s : RtcMachine)

/-- The call the scheduled terminal waits in. -/
def current : Option RtcCall :=
  s.waiting s.machine.terminal

/-- One step. -/
def step : RtcEvent → Option RtcMachine
  | .sys e =>
    if s.current ≠ none ∧ ¬e.fromDevice ∨ s.machine.ReadsRtc e then none
    else (s.machine.step img e).map fun m => { s with machine := m }
  | .begin call =>
    if s.current = none ∧ s.machine.running ≠ none ∧
        Kernel.ReadsRtc s.machine.kernel.curFd call.fd call.buf then
      some ⟨s.machine.withKernel (s.machine.kernel.setFlagRtc 0),
        Function.update s.waiting s.machine.terminal (some call)⟩
    else none
  | .finish =>
    if s.current = none ∨ s.machine.kernel.rtc.flagRtc = 0 then none
    else some { s with waiting := Function.update s.waiting s.machine.terminal none }

/-- The event of the machine that a step is, if calls are done where they return. -/
def whole : RtcEvent → List Event
  | .sys e => [e]
  | .begin _ => []
  | .finish => s.current.toList.map fun call => .read call.fd call.buf call.nbytes

/-- If the event is a read, it stores in its caller's own page. `rtc_read` stores nothing. -/
def OwnReads (s : RtcMachine) : RtcEvent → Prop
  | .sys e => Machine.OwnReads img s.machine e
  | _ => True

instance (s : RtcMachine) : ∀ e, Decidable (OwnReads img s e)
  | .sys e => inferInstanceAs (Decidable (Machine.OwnReads img s.machine e))
  | .begin _ | .finish => .isTrue trivial

/-- Nobody waits. -/
def start (m : Machine) : RtcMachine :=
  ⟨m, fun _ => none⟩

variable {img s} {s' : RtcMachine} {m m' : Machine}

/-! ## The calls as single steps -/

/-- A waiting terminal is in a call of its innermost process, through the RTC's table. -/
def Waits (m : Machine) (t : Terminal) (call : RtcCall) : Prop :=
  ∃ p, (m.pids t).head? = some p ∧ Kernel.ReadsRtc (m.kernel.table p) call.fd call.buf

/-- The state is that of the machine but for the RTC's variables. -/
structure Refines (img : Image) (s : RtcMachine) (m : Machine) : Prop where
  reachable : m.Reachable img
  same : ∃ r, s.machine = m.withRtc r
  waits : ∀ t call, s.waiting t = some call → Waits m t call

theorem head_pids (m : Machine) : (m.pids m.terminal).head? = m.running := by
  rw [Machine.running, Machine.stack, Machine.pids, List.head?_map]

/-- An event of a device leaves the processes where they are. -/
theorem step_fromDevice {e : Event} (he : e.fromDevice) (h : m.step img e = some m') :
    m'.calls = m.calls ∧ m'.kernel.proc.pcb = m.kernel.proc.pcb := by
  cases e with
  | contextSwitch frame =>
    obtain rfl := Option.some.inj h
    rw [Machine.withKernel]
    exact ⟨rfl, Kernel.interruptPit_pcb frame m.kernel⟩
  | interruptKeyboard code =>
    obtain rfl := Option.some.inj h
    exact ⟨rfl, congrArg Processes.pcb (Machine.Quiet.interruptKeyboard code).proc⟩
  | interruptRtc =>
    obtain rfl := Option.some.inj h
    exact ⟨rfl, rfl⟩
  | switchVid target =>
    obtain rfl := Option.some.inj h
    exact ⟨rfl, congrArg Processes.pcb (Machine.Quiet.switchVid target).proc⟩
  | _ => exact absurd he (by simp [Event.fromDevice])

/-- A terminal goes on waiting through the steps of the others and of the devices. -/
theorem Waits.step (hm : m.Coherent) {e : Event} (h : m.step img e = some m') {t : Terminal}
    {call : RtcCall} (hw : Waits m t call) (ht : t = m.terminal → e.fromDevice) :
    Waits m' t call := by
  obtain ⟨p, hp, hreads⟩ := hw
  have hkeep : m'.calls t = m.calls t ∧ m'.kernel.proc.pcb p = m.kernel.proc.pcb p := by
    rcases eq_or_ne t m.terminal with heq | hne
    · obtain ⟨hcalls, hpcb⟩ := step_fromDevice (ht heq) h
      exact ⟨congrFun hcalls t, congrFun hpcb p⟩
    · have hu := Machine.step_untouched hm h hne
      exact ⟨hu.calls, hu.pcb p (List.mem_of_mem_head? hp)⟩
  refine ⟨p, ?_, ?_⟩
  · rw [Machine.pids, hkeep.1]
    exact hp
  · rw [Kernel.table, hkeep.2]
    exact hreads

theorem ownReads_withRtc {r : Rtc} {e : Event} :
    Machine.OwnReads img (m.withRtc r) e ↔ Machine.OwnReads img m e := by
  cases e with
  | read fd buf nbytes =>
    obtain ⟨r', -, h⟩ := m.kernel.withRtc_sysRead r img fd buf nbytes
    have h' : (m.withRtc r).kernel.sysRead img fd buf nbytes = _ := h
    rw [Machine.OwnReads, Machine.OwnReads, h']
    cases m.kernel.sysRead img fd buf nbytes <;> simp [Kernel.ReadResult.withRtc]
  | _ => exact Iff.rfl

theorem Refines.step {e : RtcEvent} (h : Refines img s m) (hown : s.OwnReads img e)
    (hstep : s.step img e = some s') :
    ∃ m', Transition.run (Machine.step img) m (s.whole e) = some m' ∧ Refines img s' m' := by
  obtain ⟨r, hr⟩ := h.same
  have hterm : s.machine.terminal = m.terminal := by rw [hr]; rfl
  cases e with
  | sys e =>
    simp only [RtcMachine.step] at hstep
    split_ifs at hstep with he
    obtain ⟨m₁, hm₁, rfl⟩ := Option.map_eq_some_iff.1 hstep
    obtain ⟨r', -, hcomm⟩ := @Machine.step_withRtc img m r e
    rw [hr, hcomm] at hm₁
    obtain ⟨m', hm', rfl⟩ := Option.map_eq_some_iff.1 hm₁
    have hown' : Machine.OwnReads img m e := by
      rw [← ownReads_withRtc, ← hr]
      exact hown
    refine ⟨m', by rw [whole, Transition.run_cons, hm']; rfl, h.reachable.step hown' hm',
      ⟨r', rfl⟩, ?_⟩
    intro t call ht
    refine (h.waits t call ht).step h.reachable.coherent hm' fun heq => ?_
    by_contra hdev
    refine he (Or.inl ⟨?_, hdev⟩)
    rw [current, hterm, ← heq]
    simp [show s.waiting t = some call from ht]
  | «begin» call =>
    simp only [RtcMachine.step] at hstep
    split_ifs at hstep with he
    obtain rfl := Option.some.inj hstep
    obtain ⟨-, hrun, hreads⟩ := he
    refine ⟨m, rfl, h.reachable, ⟨{ r with flagRtc := 0 }, by rw [hr]; rfl⟩, ?_⟩
    intro t c ht
    rcases eq_or_ne t s.machine.terminal with rfl | hne
    · obtain rfl : call = c := by simpa using ht
      rw [hr, Machine.withRtc_running] at hrun
      obtain ⟨p, hp⟩ := Option.ne_none_iff_exists'.1 hrun
      refine ⟨p, by rw [hterm, head_pids, hp], ?_⟩
      have hptr := (h.reachable.coherent.installed hp).curFdPtr
      rwa [hr, show (m.withRtc r).kernel.curFd = m.kernel.curFd from
        funext (Kernel.withRtc_curFd _ _), funext (Kernel.curFd_eq hptr)] at hreads
    · exact h.waits t c (by simpa [hne] using ht)
  | finish =>
    simp only [RtcMachine.step] at hstep
    split_ifs at hstep with he
    obtain rfl := Option.some.inj hstep
    obtain ⟨call, hcall⟩ := Option.ne_none_iff_exists'.1 (not_or.1 he).1
    rw [current, hterm] at hcall
    obtain ⟨p, hp, hreads⟩ := h.waits _ call hcall
    rw [head_pids] at hp
    have hptr := (h.reachable.coherent.installed hp).curFdPtr
    have hread := Kernel.sysRead_rtc (k := m.kernel)
      (by rwa [funext (Kernel.curFd_eq hptr)]) img call.nbytes
    have hm' : m.step img (.read call.fd call.buf call.nbytes) =
        some (m.withKernel m.kernel.rtcRead.kernel) := by
      rw [Machine.step, hread, Machine.userCall, if_neg (by simp [hp])]
      rfl
    have hown' : Machine.OwnReads img m (.read call.fd call.buf call.nbytes) := by
      intro res hres
      obtain rfl := Option.some.inj (hread.symm.trans hres)
      exact Or.inl rfl
    refine ⟨m.withKernel m.kernel.rtcRead.kernel, ?_, h.reachable.step hown' hm', ⟨r, hr⟩, ?_⟩
    · rw [whole, current, hterm, hcall]
      show Transition.run _ m [Event.read call.fd call.buf call.nbytes] = _
      rw [Transition.run_cons, hm']
      rfl
    · intro t c ht
      rcases eq_or_ne t s.machine.terminal with rfl | hne
      · simp at ht
      · exact h.waits t c (by simpa [hne] using ht)

/-- Every run in which calls of `rtc_read` wait is one of the machine, with each call done where it
returns : the states are the same but for the RTC's variables, and the calls that wait still
have their process and its descriptor. -/
theorem run_refines {m₀ : Machine} (hm₀ : m₀.Booted) {es : List RtcEvent}
    (hown : Transition.AllEvents (step img) (OwnReads img) (start m₀) es)
    (hrun : Transition.run (step img) (start m₀) es = some s) :
    ∃ m, Transition.run (Machine.step img) m₀
        (Transition.outputs (step img) whole (start m₀) es) = some m ∧ Refines img s m :=
  Transition.run_simulation (fun _ _ _ _ h hown hstep => h.step hown hstep)
    ⟨.init hm₀, ⟨m₀.kernel.rtc, rfl⟩, fun _ _ h => absurd h (by simp [start])⟩ hown hrun

end RtcMachine

namespace Kernel

/-- An image with a program named `shell` and the RTC. -/
def rtcImage : Image where
  mem a := (([(0, 2), (4, 1), (8, 1), (64, 115), (65, 104), (66, 101), (67, 108), (68, 108),
    (96, 2), (128, 114), (129, 116), (130, 99), (4096, 4), (8192, 0x7F), (8193, 0x45),
    (8194, 0x4C), (8195, 0x46)] : List (Word × Byte)).lookup a).getD 0

/-- `"rtc"`. -/
def rtcName : CString :=
  ⟨[114, 116, 99], by decide⟩

end Kernel

namespace RtcMachine

variable {img : Image} {s s' : RtcMachine}

/-- The first shell waits for the RTC. The tick comes while another one runs on the second
terminal. -/
def waits : List RtcEvent :=
  [.sys (.execute ⟨0, 0, fun _ => 0⟩ Kernel.shellCommand), .sys (.open Kernel.rtcName),
    .begin ⟨2, 0x8048000, 4⟩, .sys (.contextSwitch ⟨0, 0, 0⟩),
    .sys (.execute ⟨1, 1, fun _ => 0⟩ Kernel.shellCommand), .sys .interruptRtc,
    .sys (.contextSwitch ⟨0, 0, 0⟩), .sys (.contextSwitch ⟨0, 0, 0⟩), .finish]

theorem run_refines_rtc :
    ∃ s m, Transition.run (step Kernel.rtcImage) (start Machine.first) waits = some s ∧
      Transition.run (Machine.step Kernel.rtcImage) Machine.first
        (Transition.outputs (step Kernel.rtcImage) whole (start Machine.first) waits) = some m ∧
      Refines Kernel.rtcImage s m := by
  have hsome : (Transition.run (step Kernel.rtcImage) (start Machine.first) waits).isSome := by
    decide +kernel
  obtain ⟨s, hrun⟩ := Option.isSome_iff_exists.1 hsome
  obtain ⟨m, hm, href⟩ := run_refines Machine.first_booted (by decide +kernel) hrun
  exact ⟨s, m, hrun, hm, href⟩

/-! ## The flag -/

/-- The events that clear the flag : the start of another call, and `rtc_open`. -/
def Lowers (img : Image) (s : RtcMachine) : RtcEvent → Prop
  | .sys e => s.machine.LowersRtc img e
  | .begin _ => True
  | .finish => False

theorem flagRtc_step {e : RtcEvent} (h : s.step img e = some s') :
    s'.machine.FlagRtc ↔ e = .sys .interruptRtc ∨ s.machine.FlagRtc ∧ ¬s.Lowers img e := by
  cases e with
  | sys e =>
    simp only [step] at h
    split_ifs at h with he
    obtain ⟨m₁, hm₁, rfl⟩ := Option.map_eq_some_iff.1 h
    rw [Machine.flagRtc_step hm₁, Machine.RaisesRtc, or_iff_left (not_or.1 he).2]
    simp [Lowers]
  | «begin» call =>
    simp only [step] at h
    split_ifs at h
    obtain rfl := Option.some.inj h
    simp [Lowers, Machine.FlagRtc, Machine.withKernel, Kernel.setFlagRtc]
  | finish =>
    simp only [step] at h
    split_ifs at h
    obtain rfl := Option.some.inj h
    simp [Lowers]

/-- After a call of `rtc_read` has begun, a terminal that waits can return exactly if the RTC has
ticked since and behind its last ticks no other call has begun and nobody has opened the
RTC. -/
theorem finish_iff {s₁ s₂ : RtcMachine} {call : RtcCall} {es : List RtcEvent}
    (hbegin : s.step img (.begin call) = some s₁)
    (_hown : Transition.AllEvents (step img) (OwnReads img) s₁ es)
    (hrun : Transition.run (step img) s₁ es = some s₂) (hwait : s₂.current ≠ none) :
    (s₂.step img .finish).isSome ↔
      ∃ es₁ es₂ t, es = es₁ ++ .sys .interruptRtc :: es₂ ∧
        Transition.run (step img) s₁ (es₁ ++ [.sys .interruptRtc]) = some t ∧
        Transition.AllEvents (step img) (fun s e => ¬s.Lowers img e) t es₂ := by
  have hdown : ¬s₁.machine.FlagRtc := by
    rw [flagRtc_step hbegin]
    simp [Lowers]
  have hfin : (s₂.step img .finish).isSome ↔ s₂.machine.FlagRtc := by
    rw [step, Machine.FlagRtc]
    by_cases hf : s₂.machine.kernel.rtc.flagRtc = 0 <;> simp [hwait, hf]
  rw [hfin, Transition.flag_iff (fun _ _ _ => flagRtc_step) hrun,
    or_iff_right fun h => hdown h.1]
  constructor
  · rintro ⟨es₁, e, es₂, t₁, t₂, rfl, h₁, h₂, rfl, hall⟩
    refine ⟨es₁, es₂, t₂, rfl, ?_, hall⟩
    rw [Transition.run_append, h₁, Option.bind_some, Transition.run_cons, h₂]
    rfl
  · rintro ⟨es₁, es₂, t, rfl, h, hall⟩
    rw [Transition.run_append] at h
    obtain ⟨t₁, h₁, htick⟩ := Option.bind_eq_some_iff.1 h
    rw [Transition.run_cons] at htick
    obtain ⟨t₂, h₂, hnil⟩ := Option.bind_eq_some_iff.1 htick
    rw [Transition.run_nil, Option.some.injEq] at hnil
    rw [hnil] at h₂
    exact ⟨es₁, _, es₂, t₁, t, rfl, h₁, h₂, rfl, hall⟩

/-- Processes on all terminals that have the RTC open. -/
def readers : Machine where
  kernel := { Kernel.zero with
    proc := { Kernel.zero.proc with
      processArray := fun _ => ⟨0, 0, 0, 0, .kernelFdt⟩
      kernelFdt := fun _ => ⟨some .rtc, 0, 0, 1⟩ } }
  calls _ := [⟨⟨0, 0⟩, 0⟩]

/-- A tick that comes while another terminal is scheduled. -/
theorem finish_readers : ∃ s₁ s₂ : RtcMachine,
    (start readers).step Kernel.rtcImage (.begin ⟨2, 0x8048000, 4⟩) = some s₁ ∧
    Transition.run (step Kernel.rtcImage) s₁ [.sys (.contextSwitch ⟨0, 0, 0⟩),
      .sys .interruptRtc, .sys (.contextSwitch ⟨0, 0, 0⟩), .sys (.contextSwitch ⟨0, 0, 0⟩)] =
        some s₂ ∧ (s₂.step Kernel.rtcImage .finish).isSome := by
  have hbegin : (start readers).step Kernel.rtcImage (.begin ⟨2, 0x8048000, 4⟩) =
      some ⟨readers.withKernel (readers.kernel.setFlagRtc 0),
        Function.update (fun _ => none) 0 (some ⟨2, 0x8048000, 4⟩)⟩ := by
    rfl
  have hrun : Transition.run (step Kernel.rtcImage)
      ⟨readers.withKernel (readers.kernel.setFlagRtc 0),
        Function.update (fun _ => none) 0 (some ⟨2, 0x8048000, 4⟩)⟩
      [.sys (.contextSwitch ⟨0, 0, 0⟩), .sys .interruptRtc, .sys (.contextSwitch ⟨0, 0, 0⟩),
        .sys (.contextSwitch ⟨0, 0, 0⟩)] = some _ := rfl
  refine ⟨_, _, hbegin, hrun, (finish_iff hbegin (by decide) hrun (by decide)).2 ?_⟩
  exact ⟨[.sys (.contextSwitch ⟨0, 0, 0⟩)], _, _, rfl, rfl, id, fun _ _ => ⟨id, fun _ _ => trivial⟩⟩

end RtcMachine

end MpOS
