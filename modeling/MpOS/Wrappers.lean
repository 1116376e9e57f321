import MpOS.Lib.X86Stack

/-!
# Interrupt wrappers (`isr_wrapper.S`)

The wrappers of the interrupt handlers push all registers, call the handler and pop the
registers again. Some of them push the flags first. Whatever code an interrupt finds,
of the kernel or of a process, it goes on with its registers, flags and stack as they
were, and only memory is what the handler made of it (`interrupt_transparent`).

`pit_wrapper` is left out. Its handler does not return to it, but goes on on the stack of
another terminal.
-/

namespace MpOS

open X86

/-! ## `isr_wrapper.S` -/

/-- The registers a wrapper pushes. -/
def wrapperRegs : List Reg :=
  [.eax, .ebx, .ecx, .edx, .esp, .ebp, .esi, .edi]

/-- A wrapper around a handler, between the flags if it saves them. -/
def wrapper (saveFlags : Bool) (handler : UInt32) : List Instr :=
  (if saveFlags then [.pushf, .cli] else []) ++
    (wrapperRegs.map .push ++ (.cld :: .call handler ::
      (wrapperRegs.reverse.map .pop ++ ((if saveFlags then [.popf] else []) ++ [.iret]))))

/-- `key_wrapper`. -/
def keyWrapper (interruptKeyboard : UInt32) : List Instr :=
  wrapper true interruptKeyboard

/-- `rtc_wrapper`. -/
def rtcWrapper (interruptRtc : UInt32) : List Instr :=
  wrapper true interruptRtc

/-- `master_wrapper`. -/
def masterWrapper (interruptMaster : UInt32) : List Instr :=
  wrapper false interruptMaster

/-- `slave_wrapper`. -/
def slaveWrapper (interruptSlave : UInt32) : List Instr :=
  wrapper false interruptSlave

/-- The interrupts whose handlers return. -/
inductive Device
  | keyboard
  | rtc
  | master
  | slave

namespace Device

/-- The wrapper of a device. -/
def wrapper : Device → UInt32 → List Instr
  | keyboard => keyWrapper
  | rtc => rtcWrapper
  | master => masterWrapper
  | slave => slaveWrapper

/-- Its wrapper saves the flags. -/
def savesFlags : Device → Bool
  | keyboard => true
  | rtc => true
  | master => false
  | slave => false

theorem wrapper_eq (d : Device) (handler : UInt32) :
    d.wrapper handler = MpOS.wrapper d.savesFlags handler := by
  cases d <;> rfl

end Device

/-! ## The handler's call -/

/-- The state the handler is entered in, from the state the registers are pushed in. -/
def handlerCall (handler back : UInt32) (s : State) : State :=
  let s := pushAll wrapperRegs s
  callState [] { s with eflags := s.eflags &&& 0xFFFFFBFF } back handler

/-- The state the handler is entered in, from the state the wrapper is entered in. -/
def wrapperCall (saveFlags : Bool) (handler back : UInt32) (s : State) : State :=
  if saveFlags then
    let s := s.push s.eflags
    handlerCall handler back { s with eflags := s.eflags &&& 0xFFFFFDFF }
  else handlerCall handler back s

variable {sys : System} {handler : UInt32} {f : State → State}

theorem mem_wrapperRegs (r : Reg) : r ∈ wrapperRegs := by
  cases r <;> decide

/-- The part of a wrapper that all of them share. -/
theorem save_call_restore {s : State} {n : ℕ} {a b : UInt32} {rest : List Instr}
    (hcode : sys.Block a (wrapperRegs.map .push ++ (.cld :: .call handler ::
      (wrapperRegs.reverse.map .pop ++ rest))) b)
    (hs : s.eip = a) (hext : sys.outside handler = some f) (hn : n + 8 < 2 ^ 30)
    (hf : ∀ back, Cdecl f 0 (n + 8) (handlerCall handler back s)) :
    ∃ back s', sys.Runs s s' ∧ sys.Block s'.eip rest b ∧ X86.Balanced n Set.univ s s' ∧
      s'.mem = (f (handlerCall handler back s)).mem := by
  obtain ⟨a', hpush, hcode⟩ := hcode.append
  obtain ⟨c, hcld, hcode⟩ := hcode.plain rfl
  obtain ⟨back, hcall, hcode⟩ := hcode.transfer rfl
  obtain ⟨d, hpop, hrest⟩ := hcode.append
  obtain ⟨heip, hbal⟩ := (hf back).balanced_nil hn
  have hentry : sys.Runs ((pushAll wrapperRegs s).goto a') (handlerCall handler back s) :=
    (hcld ((pushAll wrapperRegs s).goto a') rfl).trans (hcall ({ pushAll wrapperRegs s with
      eflags := (pushAll wrapperRegs s).eflags &&& 0xFFFFFBFF }.goto c) _ rfl rfl)
  have hhandler : sys.Runs (handlerCall handler back s) (f (handlerCall handler back s)) :=
    System.runs_outside hext
  obtain ⟨s', hrun', hs', hbal', hmem, -⟩ := save_restore hpush hpop hs hn (hentry.trans hhandler)
    heip ⟨hbal.esp, hbal.reg, hbal.cs, hbal.ss, hbal.stack⟩
  refine ⟨back, s', hrun', by rwa [hs'], ⟨hbal'.esp, fun r _ => hbal'.reg r ?_, hbal'.cs, hbal'.ss,
    hbal'.stack⟩, hmem⟩
  exact Or.inr (mem_wrapperRegs r)

theorem handlerCall_goto (back a : UInt32) (s : State) :
    handlerCall handler back (s.goto a) = handlerCall handler back s := by
  rw [handlerCall, pushAll_goto]
  rfl

theorem wrapper_transparent {saveFlags : Bool} {g : Gate} {s : State} {b : UInt32}
    (hcode : sys.Block g.offset (wrapper saveFlags handler) b)
    (hext : sys.outside handler = some f)
    (hf : ∀ back, Cdecl f 0 14 (wrapperCall saveFlags handler back (sys.enter g s.eip s))) :
    ∃ back, sys.Runs (sys.enter g s.eip s)
      { s with mem := (f (wrapperCall saveFlags handler back (sys.enter g s.eip s))).mem } := by
  cases saveFlags with
  | false =>
    obtain ⟨back, s', hrun, hrest, hbal, hmem⟩ := save_call_restore (n := 6) hcode rfl hext
      (by decide) hf
    obtain ⟨c, hiret, -⟩ := hrest.transfer rfl
    have hlast := hiret s' _ rfl rfl
    rw [System.iret_resume ⟨hbal.esp, hbal.reg, hbal.cs, hbal.ss, fun ws hlen => hbal.stack ws
      (by omega)⟩, hmem] at hlast
    exact ⟨back, hrun.trans hlast⟩
  | true =>
    obtain ⟨c, hflags, hcode⟩ := hcode.straight [.pushf, .cli] (by decide)
    obtain ⟨back, s', hrun, hrest, hbal, hmem⟩ := save_call_restore (n := 6)
      (s := (effects [.pushf, .cli] (sys.enter g s.eip s)).goto c) hcode rfl hext (by decide)
      fun back => by
        rw [handlerCall_goto]
        exact hf back
    obtain ⟨d, hpopf, hrest⟩ := hrest.plain rfl
    obtain ⟨e, hiret, -⟩ := hrest.transfer rfl
    have hdrop : X86.Balanced 5 Set.univ (sys.enter g s.eip s) s'.drop := by
      have hpush : X86.Balanced 6 Set.univ
          ((sys.enter g s.eip s).push (sys.enter g s.eip s).eflags) s' :=
        ⟨hbal.esp, hbal.reg, hbal.cs, hbal.ss, hbal.stack⟩
      exact hpush.drop (by decide)
    have hresume : System.iret ({ s'.drop with eflags := s'.top }.goto d) =
        { s with mem := s'.mem } :=
      System.iret_resume ⟨hdrop.esp, hdrop.reg, hdrop.cs, hdrop.ss, hdrop.stack⟩
    have hlast := hiret ({ s'.drop with eflags := s'.top }.goto d) _ rfl rfl
    rw [hresume] at hlast
    refine ⟨back, (((hflags _ rfl).trans hrun).trans (hpopf s' rfl)).trans ?_⟩
    rw [handlerCall_goto] at hmem
    rw [wrapperCall, if_pos rfl]
    exact hmem ▸ hlast

/-- An interrupt through the wrapper of a device is transparent : the code it finds goes on in the
same state, but for what the handler did to memory. -/
theorem interrupt_transparent (d : Device) {g : Gate} {s : State} {b : UInt32}
    (hcode : sys.Block g.offset (d.wrapper handler) b) (hext : sys.outside handler = some f)
    (hf : ∀ back, Cdecl f 0 14 (wrapperCall d.savesFlags handler back (sys.enter g s.eip s))) :
    ∃ back, sys.Runs (sys.enter g s.eip s)
      { s with mem := (f (wrapperCall d.savesFlags handler back (sys.enter g s.eip s))).mem } := by
  rw [d.wrapper_eq] at hcode
  exact wrapper_transparent hcode hext hf

/-- A handler that sets a word of the kernel, as `interrupt_rtc` does with `flag_rtc`. -/
def setting (a w : UInt32) (s : State) : State :=
  { returning 0 s with mem := s.mem.write a w }

/-- It is a function of C where the stack is elsewhere. -/
theorem cdecl_setting {a w : UInt32} {args n : ℕ} {s : State}
    (h : ∀ i < 4 * n, ∀ j < 4, s.reg .esp + 4 + 4 * UInt32.ofNat args + UInt32.ofNat i ≠
      a + UInt32.ofNat j) : Cdecl (setting a w) args n s where
  eip := rfl
  esp := (cdecl_returning 0 args n s).esp
  reg := (cdecl_returning 0 args n s).reg
  cs := rfl
  ss := rfl
  stack ws hlen hws := by
    refine hws.congr fun i hi => ?_
    have hne := h i (by omega)
    have h0 := hne 0 (by decide)
    have hzero : a + UInt32.ofNat 0 = a := add_zero a
    rw [hzero] at h0
    exact Mem.write_of_ne _ _ h0 (hne 1 (by decide)) (hne 2 (by decide)) (hne 3 (by decide))

/-- A processor with `rtc_wrapper` loaded. -/
def ticking : System where
  code := place 0x1000 (rtcWrapper 0x2000)
  idt _ := none
  esp0 := 0x7FE000
  ss0 := 0x18
  outside a := if a = 0x2000 then some (setting 0x410000 1) else none

theorem interrupt_transparent_rtc : ∃ mem : Mem, mem.read 0x410000 = 1 ∧ ticking.Runs
    (ticking.enter ⟨0x1000, 0x10, 0, false⟩ 0x8048000 ⟨fun _ => 7, 0x8048000, 0x202, 0x23, 0x2B,
      fun _ => 0⟩) ⟨fun _ => 7, 0x8048000, 0x202, 0x23, 0x2B, mem⟩ := by
  have hcode : ticking.Block 0x1000 (Device.rtc.wrapper 0x2000) 0x1016 := by decide
  have hf : ∀ back, Cdecl (setting 0x410000 1) 0 14 (wrapperCall true 0x2000 back
      (ticking.enter ⟨0x1000, 0x10, 0, false⟩ 0x8048000 ⟨fun _ => 7, 0x8048000, 0x202, 0x23, 0x2B,
        fun _ => 0⟩)) := by
    intro back
    refine cdecl_setting ?_
    -- the gate, the flags, the registers and the return address
    have hesp : (wrapperCall true 0x2000 back (ticking.enter ⟨0x1000, 0x10, 0, false⟩ 0x8048000
        ⟨fun _ => 7, 0x8048000, 0x202, 0x23, 0x2B, fun _ => 0⟩)).reg .esp =
          0x7FE000 - 4 * 15 := by
      rfl
    rw [hesp]
    decide
  obtain ⟨back, hrun⟩ := interrupt_transparent .rtc hcode rfl hf
  exact ⟨_, Mem.read_write_self _ _ _, hrun⟩

end MpOS
