import MpOS.Idt
import MpOS.Lib.X86Stack

/-!
# System calls (`ece391syscall.S`, `isr_wrapper.S`)

A stub of the user library puts the number of its call and three arguments into registers
and goes through gate 128. The wrapper behind the gate calls the kernel function of that
number with the registers as arguments. `system_call_enters` and `system_call_returns` say
that calling a stub is calling the kernel function : what the caller pushed is what the
function finds as its arguments, what the function leaves in `eax` is what the stub
returns. `invalid_system_call` is the other branch of the wrapper.
-/

namespace MpOS

open X86

/-- The system calls. -/
inductive Syscall
  | halt
  | execute
  | read
  | write
  | open
  | close
  | getargs
  | vidmap
  | setHandler
  | sigreturn
  deriving DecidableEq

/-- The numbers of `ece391sysnum.h`. -/
def Syscall.number : Syscall → UInt32
  | .halt => 1
  | .execute => 2
  | .read => 3
  | .write => 4
  | .open => 5
  | .close => 6
  | .getargs => 7
  | .vidmap => 8
  | .setHandler => 9
  | .sigreturn => 10

/-! ## The stubs -/

/-- `DO_CALL`, up to the interrupt. -/
def doCallArgs (number : UInt32) : List Instr :=
  [.push .ebx, .movImm number .eax, .load 8 .esp .ebx, .load 12 .esp .ecx, .load 16 .esp .edx]

/-- `DO_CALL`. -/
def doCall (number : UInt32) : List Instr :=
  doCallArgs number ++ [.int 0x80, .pop .ebx, .ret]

/-- `_start`. -/
def start (main halt : UInt32) : List Instr :=
  [.call main, .pushImm 0, .pushImm 0, .push .eax, .call halt]

/-! ## The wrapper -/

/-- `MIN_SYSCALL`. -/
def minSyscall : UInt32 :=
  1

/-- `MAX_SYSCALL`. -/
def maxSyscall : UInt32 :=
  10

/-- The registers the wrapper pushes. -/
def savedRegs : List Reg :=
  [.ebx, .ecx, .edx, .esi, .edi, .esp, .ebp]

/-- `jumptable`. -/
def jumptable (entry : Syscall → UInt32) : List UInt32 :=
  [0, entry .halt, entry .execute, entry .read, entry .write, entry .open, entry .close,
    entry .getargs, entry .vidmap, entry .setHandler, entry .sigreturn]

/-- The number checks of `syscall_wrapper`, and its call. -/
def syscallBody (entry : Syscall → UInt32) (invalid : UInt32) : List Instr :=
  [.cmpImm minSyscall .eax, .jl invalid, .cmpImm maxSyscall .eax, .jg invalid,
    .push .edx, .push .ecx, .push .ebx, .callTable (jumptable entry) .eax,
    .cmpImm (-1) .eax, .addImm 12 .esp, .je invalid]

/-- What both ends of the wrapper do. -/
def syscallExit : List Instr :=
  savedRegs.reverse.map .pop ++ [.iret]

/-- `syscall_wrapper`. -/
def syscallWrapper (entry : Syscall → UInt32) (invalid : UInt32) : List Instr :=
  savedRegs.map .push ++ (syscallBody entry invalid ++ syscallExit)

/-- `invalid_syscall`. -/
def invalidSyscall : List Instr :=
  .movImm (-1) .eax :: syscallExit

/-- The kernel's part of a system call, loaded into a processor. -/
structure SyscallCode (sys : System) (addr : Handler → UInt32) (entry : Syscall → UInt32)
    (invalid : UInt32) : Prop where
  idt : sys.idt = gates addr
  wrapper : sys.Block (addr .syscallWrapper) (syscallWrapper entry invalid) invalid
  invalid : ∃ b, sys.Block invalid invalidSyscall b

/-! ## States on the way -/

/-- The state of a stub at its interrupt. -/
def stubState (number : UInt32) (s : State) : State :=
  effects (doCallArgs number) s

/-- The gate of the system calls. -/
def syscallGate (addr : Handler → UInt32) : Gate where
  offset := addr .syscallWrapper
  selector := 0x10
  dpl := 3
  trap := true

/-- The state a kernel function is entered in, from the state the wrapper is entered in. -/
def functionCall (entry : Syscall → UInt32) (k : Syscall) (back : UInt32) (s : State) : State :=
  let s := effects [.cmpImm minSyscall .eax, .cmpImm maxSyscall .eax] (pushAll savedRegs s)
  callState [.edx, .ecx, .ebx] s back (entry k)

/-- The state a kernel function is entered in, from the state its stub is entered in. -/
def kernelCall (sys : System) (addr : Handler → UInt32) (entry : Syscall → UInt32) (k : Syscall)
    (next back : UInt32) (s : State) : State :=
  functionCall entry k back (sys.enter (syscallGate addr) next (stubState k.number s))

/-- The arguments a function finds on the stack it is entered with. -/
def arg (s : State) (i : ℕ) : UInt32 :=
  s.mem.read (s.reg .esp + 4 + 4 * UInt32.ofNat i)

/-- The state a stub returns in, from the state it is entered in. -/
def stubReturn (s : State) (value : UInt32) (mem : Mem) : State where
  reg
    | .eax => value
    | .ecx => arg s 1
    | .edx => arg s 2
    | .esp => s.reg .esp + 4
    | r => s.reg r
  eip := s.top
  eflags := s.eflags
  cs := s.cs
  ss := s.ss
  mem := mem

variable {sys : System} {addr : Handler → UInt32} {entry : Syscall → UInt32} {invalid : UInt32}

theorem SyscallCode.gate (h : SyscallCode sys addr entry invalid) :
    sys.idt 0x80 = some (syscallGate addr) := by
  rw [h.idt, gates_eq]
  rfl

theorem Syscall.signed_number (k : Syscall) : 1 ≤ signed k.number ∧ signed k.number ≤ 10 := by
  cases k <;> decide

theorem jumptable_number (k : Syscall) :
    (jumptable entry)[k.number.toNat]? = some (entry k) := by
  cases k <;> rfl

/-! ## The wrapper's run -/

/-- The checks of the wrapper let the numbers of system calls pass, and no other number. -/
theorem number_checks {s : State} {a b : UInt32} {rest : List Instr}
    (hcode : sys.Block a (.cmpImm minSyscall .eax :: .jl invalid :: .cmpImm maxSyscall .eax ::
      .jg invalid :: rest) b) (hs : s.eip = a) :
    ∃ c, sys.Block c rest b ∧
      (1 ≤ signed (s.reg .eax) ∧ signed (s.reg .eax) ≤ 10 →
        sys.Runs s ((effects [.cmpImm minSyscall .eax, .cmpImm maxSyscall .eax] s).goto c)) ∧
      (¬(1 ≤ signed (s.reg .eax) ∧ signed (s.reg .eax) ≤ 10) →
        ∃ eflags, sys.Runs s ({ s with eflags := eflags }.goto invalid)) := by
  obtain ⟨c₁, hcmp₁, hcode⟩ := hcode.plain rfl
  obtain ⟨c₂, hjl, hcode⟩ := hcode.transfer rfl
  obtain ⟨c₃, hcmp₂, hcode⟩ := hcode.plain rfl
  obtain ⟨c₄, hjg, hcode⟩ := hcode.transfer rfl
  let s₁ : State := { s with eflags := setArith s.eflags (subFlags (s.reg .eax) minSyscall) }
  let s₂ : State := { s₁ with eflags := setArith s₁.eflags (subFlags (s.reg .eax) maxSyscall) }
  have hmin := sign_ne_overflow_iff s.eflags (s.reg .eax) minSyscall
  have hmax := not_zero_and_iff s₁.eflags (s.reg .eax) maxSyscall
  have hone : signed minSyscall = 1 := by decide
  have hten : signed maxSyscall = 10 := by decide
  rw [hone] at hmin
  rw [hten] at hmax
  have hnext : 1 ≤ signed (s.reg .eax) → sys.Runs s (s₂.goto c₃) := fun h =>
    ((hcmp₁ s hs).trans (hjl (s₁.goto c₁) _ rfl (System.transfer_jl sys
      (not_not.1 (hmin.not.2 (by omega)))))).trans (hcmp₂ (s₁.goto c₂) rfl)
  refine ⟨c₄, hcode, fun h => ?_, fun h => ?_⟩
  · exact (hnext h.1).trans (hjg (s₂.goto c₃) _ rfl (System.transfer_jg sys
      (hmax.not.2 (by omega))))
  · by_cases hless : signed (s.reg .eax) < 1
    · exact ⟨s₁.eflags, (hcmp₁ s hs).trans (hjl (s₁.goto c₁) _ rfl
        (System.transfer_jl_taken sys (hmin.2 hless)))⟩
    · exact ⟨s₂.eflags, (hnext (by omega)).trans (hjg (s₂.goto c₃) _ rfl
        (System.transfer_jg_taken sys (hmax.2 (by omega))))⟩

/-- The function of a number is called. -/
theorem body_enters {k : Syscall} {s : State} {a b : UInt32} {rest : List Instr}
    (hcode : sys.Block a (syscallBody entry invalid ++ rest) b) (hs : s.eip = a)
    (heax : s.reg .eax = k.number) :
    ∃ back, sys.Runs s (callState [.edx, .ecx, .ebx]
        (effects [.cmpImm minSyscall .eax, .cmpImm maxSyscall .eax] s) back (entry k)) ∧
      sys.Block back (.cmpImm (-1) .eax :: .addImm 12 .esp :: .je invalid :: rest) b := by
  obtain ⟨c, hcall, hpass, -⟩ := number_checks hcode hs
  obtain ⟨d, hpush, hcall⟩ := hcall.straight [.push .edx, .push .ecx, .push .ebx] (by decide)
  obtain ⟨back, hcall, hrest⟩ := hcall.transfer rfl
  refine ⟨back, ((hpass ?_).trans (hpush _ rfl)).trans (hcall _ _ rfl ?_), hrest⟩
  · rw [heax]
    exact k.signed_number
  · refine System.transfer_callTable sys ?_
    have heax' : (pushAll [.edx, .ecx, .ebx] (effects [.cmpImm minSyscall .eax,
        .cmpImm maxSyscall .eax] s)).reg .eax = k.number :=
      (pushAll_reg (by decide)).trans heax
    exact (congrArg (fun w : UInt32 => (jumptable entry)[w.toNat]?) heax').trans
      (jumptable_number k)

/-- Whatever the function returns, it is left in `eax`. The check for -1 is of no use : the sum
behind it sets the flags again. -/
theorem body_returns {k : Syscall} {f : State → State} {s : State} {n : ℕ} {a b : UInt32}
    {rest : List Instr} (hcode : sys.Block a (syscallBody entry invalid ++ rest) b)
    (hs : s.eip = a) (heax : s.reg .eax = k.number) (hext : sys.outside (entry k) = some f)
    (hn : n + 3 < 2 ^ 30) (hesp : s.reg .esp ≠ 0)
    (hf : ∀ back, Cdecl f 3 n (callState [.edx, .ecx, .ebx]
      (effects [.cmpImm minSyscall .eax, .cmpImm maxSyscall .eax] s) back (entry k))) :
    ∃ back s', sys.Runs s s' ∧ sys.Block s'.eip rest b ∧ X86.Balanced n calleeSaved s s' ∧
      s'.reg .eax = (f (callState [.edx, .ecx, .ebx] (effects [.cmpImm minSyscall .eax,
        .cmpImm maxSyscall .eax] s) back (entry k))).reg .eax ∧
      s'.mem = (f (callState [.edx, .ecx, .ebx] (effects [.cmpImm minSyscall .eax,
        .cmpImm maxSyscall .eax] s) back (entry k))).mem := by
  obtain ⟨back, hcall, hrest⟩ := body_enters hcode hs heax
  have hcdecl := hf back
  refine ⟨back, ?_⟩
  generalize hu : effects [.cmpImm minSyscall .eax, .cmpImm maxSyscall .eax] s = u at *
  have hret : Cdecl f [Reg.edx, .ecx, .ebx].length n
      (callState [.edx, .ecx, .ebx] u back (entry k)) := hcdecl
  obtain ⟨heip, hbal⟩ := hret.balanced (by decide) hn
  have hfun := System.runs_outside (s := callState [.edx, .ecx, .ebx] u back (entry k)) hext
  generalize f (callState [.edx, .ecx, .ebx] u back (entry k)) = t at *
  obtain ⟨c₁, hcmp, hrest⟩ := hrest.plain rfl
  obtain ⟨c₂, hadd, hrest⟩ := hrest.plain rfl
  obtain ⟨c₃, hje, hrest⟩ := hrest.transfer rfl
  let t₁ : State := { t with eflags := setArith t.eflags (subFlags (t.reg .eax) (-1)) }
  let t₂ : State := { t.setReg .esp (t.reg .esp + 12) with
    eflags := setArith t₁.eflags (addFlags (t.reg .esp) 12) }
  have hsum : t.reg .esp + 12 = s.reg .esp := by
    have h := hbal.esp
    rw [State.setReg_self, ← hu] at h
    exact h
  have hnot : sys.Runs (t₂.goto c₂) (t₂.goto c₃) := by
    refine hje _ _ rfl (System.transfer_je sys ?_)
    show bit (setArith t₁.eflags (addFlags (t.reg .esp) 12)) 6 = false
    rw [bit_setArith (by decide), addFlags, (bit_arithFlags ..).1, hsum]
    exact decide_eq_false hesp
  refine ⟨t₂.goto c₃, ?_, hrest, ?_, ?_, rfl⟩
  · exact ((hcall.trans hfun).trans (hcmp t heip)).trans ((hadd (t₁.goto c₁) rfl).trans hnot)
  · rw [← hu] at hbal
    exact ⟨hbal.esp, hbal.reg, hbal.cs, hbal.ss, hbal.stack⟩
  · have heq : (t.setReg .esp (t.reg .esp + 12)).reg .eax = t.reg .eax :=
      t.setReg_of_ne _ (by decide)
    exact heq

theorem functionCall_goto (k : Syscall) (back a : UInt32) (s : State) :
    callState [.edx, .ecx, .ebx] (effects [.cmpImm minSyscall .eax, .cmpImm maxSyscall .eax]
      ((pushAll savedRegs s).goto a)) back (entry k) = functionCall entry k back s := by
  rw [effects_goto, callState, pushAll_goto]
  rfl

/-- The wrapper calls the function of a number. -/
theorem wrapper_enters {k : Syscall} {s : State}
    (hsys : SyscallCode sys addr entry invalid) (hs : s.eip = addr .syscallWrapper)
    (heax : s.reg .eax = k.number) : ∃ back, sys.Runs s (functionCall entry k back s) := by
  obtain ⟨a, hpush, hcode⟩ := hsys.wrapper.straight (savedRegs.map .push) (by decide)
  have heax' : ((pushAll savedRegs s).goto a).reg .eax = k.number := by
    rw [State.goto_reg, pushAll_reg (by decide), heax]
  obtain ⟨back, hcall, -⟩ := body_enters hcode rfl heax'
  rw [functionCall_goto] at hcall
  exact ⟨back, (hpush s hs).trans hcall⟩

/-- Between the wrapper's pushes and pops only `eax` gets a value of its own. -/
theorem wrapper_returns {k : Syscall} {f : State → State} {s : State}
    (hsys : SyscallCode sys addr entry invalid) (hs : s.eip = addr .syscallWrapper)
    (heax : s.reg .eax = k.number) (hext : sys.outside (entry k) = some f)
    (hesp : s.reg .esp ≠ 28) (hf : ∀ back, Cdecl f 3 12 (functionCall entry k back s)) :
    ∃ back s', sys.Runs s s' ∧ (∃ b, sys.Block s'.eip [.iret] b) ∧
      X86.Balanced 5 {r | r ∈ savedRegs} s s' ∧
      s'.reg .eax = (f (functionCall entry k back s)).reg .eax ∧
      s'.mem = (f (functionCall entry k back s)).mem := by
  obtain ⟨a, hpush, hcode⟩ := hsys.wrapper.append
  have heax' : ((pushAll savedRegs s).goto a).reg .eax = k.number := by
    rw [State.goto_reg, pushAll_reg (by decide), heax]
  have hesp' : ((pushAll savedRegs s).goto a).reg .esp ≠ 0 := by
    rw [State.goto_reg, pushAll_esp]
    exact fun h => hesp (sub_eq_zero.1 h)
  obtain ⟨back, t, hrun, hrest, hbal, hval, hmem⟩ := body_returns (n := 12) hcode rfl
    heax' hext (by decide) hesp' fun back => by
      rw [functionCall_goto]
      exact hf back
  rw [functionCall_goto] at hval hmem
  obtain ⟨b, hpop, hiret⟩ := hrest.append
  obtain ⟨s', hrun', hs', hbal', hmem', hother⟩ := save_restore hpush hpop hs (by decide) hrun rfl
    hbal
  refine ⟨back, s', hrun', ⟨_, by rw [hs']; exact hiret⟩,
    ⟨hbal'.esp, fun r hr => hbal'.reg r (Or.inr hr), hbal'.cs, hbal'.ss, hbal'.stack⟩,
    (hother .eax (by decide) (by decide)).trans hval, hmem'.trans hmem⟩

/-! ## Arguments -/

theorem stack_args_iff {s : State} {w a₀ a₁ a₂ : UInt32} :
    Stack s.mem (s.reg .esp) [w, a₀, a₁, a₂] ↔
      s.top = w ∧ arg s 0 = a₀ ∧ arg s 1 = a₁ ∧ arg s 2 = a₂ := by
  have haddr : s.reg .esp + 4 + 4 + 4 = s.reg .esp + 4 + 8 := add_assoc (s.reg .esp + 4) 4 4
  have h0 : arg s 0 = s.mem.read (s.reg .esp + 4) := by
    rw [arg]
    exact congrArg s.mem.read (add_zero _)
  simp only [Stack, and_true, haddr, h0]
  rfl

theorem arg_goto (s : State) (a : UInt32) (i : ℕ) : arg (s.goto a) i = arg s i :=
  rfl

/-- What a stub does before its interrupt. -/
theorem stubState_eq (number : UInt32) (s : State) :
    stubState number s = { s.push (s.reg .ebx) with
      reg := fun
        | .eax => number
        | .ebx => arg s 0
        | .ecx => arg s 1
        | .edx => arg s 2
        | .esp => s.reg .esp - 4
        | r => s.reg r } := by
  obtain ⟨-, -, h0, h1, h2, -⟩ :=
    (stack_args_iff (s := s).2 ⟨rfl, rfl, rfl, rfl⟩).push (s.reg .ebx) (by simp)
  simp only [State.push_esp, add_assoc] at h0 h1 h2
  refine State.ext (funext fun r => ?_) rfl rfl rfl rfl rfl
  cases r with
  | ebx => exact h0
  | ecx => exact h1
  | edx => exact h2
  | _ => rfl

/-- A kernel function finds the arguments of the stub. -/
theorem kernelCall_args (k : Syscall) (next back : UInt32) (s : State) :
    Stack (kernelCall sys addr entry k next back s).mem
      ((kernelCall sys addr entry k next back s).reg .esp) [back, arg s 0, arg s 1, arg s 2] := by
  rw [kernelCall, functionCall]
  have henter : ∀ r : Reg, r ≠ .esp →
      (sys.enter (syscallGate addr) next (stubState k.number s)).reg r =
        (stubState k.number s).reg r := fun r hr => System.enter_reg hr
  generalize sys.enter (syscallGate addr) next (stubState k.number s) = e at henter ⊢
  have hpush : ∀ r : Reg, r ≠ .esp → (pushAll savedRegs e).reg r = (stubState k.number s).reg r :=
    fun r hr => (pushAll_reg hr).trans (henter r hr)
  rw [stubState_eq] at hpush
  generalize pushAll savedRegs e = p at hpush ⊢
  have hebx : p.reg .ebx = arg s 0 := hpush .ebx (by decide)
  have hecx : p.reg .ecx = arg s 1 := hpush .ecx (by decide)
  have hedx : p.reg .edx = arg s 2 := hpush .edx (by decide)
  rw [← hebx, ← hecx, ← hedx]
  exact stack_callState (by decide) (by decide) back (entry k)

/-! ## A system call -/

/-- Up to its interrupt and behind it, a stub does not depend on the kernel. -/
theorem stub_interrupts {k : Syscall} {s : State} {a b : UInt32}
    (hsys : SyscallCode sys addr entry invalid) (hcode : sys.Block a (doCall k.number) b)
    (hs : s.eip = a) :
    ∃ next, sys.Runs s (sys.enter (syscallGate addr) next (stubState k.number s)) ∧
      sys.Block next [.pop .ebx, .ret] b := by
  obtain ⟨c, hargs, hcode⟩ := hcode.straight (doCallArgs k.number) (List.all_eq_true.1 rfl)
  obtain ⟨next, hint, hrest⟩ := hcode.transfer rfl
  refine ⟨next, (hargs s hs).trans (hint ((stubState k.number s).goto c) _ rfl ?_), hrest⟩
  rw [← System.enter_goto sys _ _ c]
  refine System.transfer_int sys hsys.gate ?_
  rw [UInt32.not_lt]
  exact State.cpl_le _

theorem functionCall_selectors (k : Syscall) (back : UInt32) (s : State) :
    (functionCall entry k back s).cs = s.cs ∧ (functionCall entry k back s).ss = s.ss := by
  rw [functionCall, callState]
  obtain ⟨hcs, hss⟩ := pushAll_selectors savedRegs s
  generalize pushAll savedRegs s = p at hcs hss ⊢
  obtain ⟨hcs', hss'⟩ := pushAll_selectors [.edx, .ecx, .ebx]
    (effects [.cmpImm minSyscall .eax, .cmpImm maxSyscall .eax] p)
  exact ⟨hcs'.trans hcs, hss'.trans hss⟩

theorem functionCall_esp (k : Syscall) (back : UInt32) (s : State) :
    (functionCall entry k back s).reg .esp = s.reg .esp - 44 := by
  rw [functionCall, callState, State.goto_reg, State.push_esp, pushAll_esp]
  have hsaved : (effects [.cmpImm minSyscall .eax, .cmpImm maxSyscall .eax]
      (pushAll savedRegs s)).reg .esp = s.reg .esp - 4 * UInt32.ofNat savedRegs.length :=
    pushAll_esp savedRegs s
  rw [hsaved, sub_sub, sub_sub]
  rfl

theorem stub_less {k : Syscall} {s : State} (hcpl : s.cpl = 3) :
    (syscallGate addr).selector &&& 3 < (stubState k.number s).cpl := by
  have hring : (0x10 : UInt32) &&& 3 < s.cpl := by
    rw [hcpl]
    decide
  exact hring

/-- Up to the kernel function only the kernel stack is written to, and the word of the stub. -/
theorem kernelCall_pushed {k : Syscall} {s : State} (hcpl : s.cpl = 3) (next back : UInt32) :
    Pushed 16 ((stubState k.number s).setReg .esp sys.esp0)
      (kernelCall sys addr entry k next back s) := by
  have hsaved := @Pushed.pushAll savedRegs _ _ _
    (@System.enter_pushed sys (syscallGate addr) next _ (@stub_less addr k s hcpl))
  rw [kernelCall, functionCall]
  generalize pushAll savedRegs (sys.enter (syscallGate addr) next (stubState k.number s)) = p
    at hsaved ⊢
  have hflags : Pushed 12 ((stubState k.number s).setReg .esp sys.esp0)
      (effects [.cmpImm minSyscall .eax, .cmpImm maxSyscall .eax] p) := ⟨hsaved.esp, hsaved.mem⟩
  have hback := (@Pushed.pushAll [.edx, .ecx, .ebx] _ _ _ hflags).push back
  exact ⟨hback.esp, hback.mem⟩

/-- A system call enters the kernel function of its number with the arguments of its stub, in the
kernel's code segment. A process enters it on the kernel stack. -/
theorem system_call_enters {k : Syscall} {s : State} {a b : UInt32}
    (hsys : SyscallCode sys addr entry invalid) (hcode : sys.Block a (doCall k.number) b)
    (hs : s.eip = a) :
    ∃ s' back, sys.Runs s s' ∧ s'.eip = entry k ∧ s'.cs = 0x10 ∧
      Stack s'.mem (s'.reg .esp) [back, arg s 0, arg s 1, arg s 2] ∧
      (s.cpl = 3 → s'.ss = sys.ss0 ∧ s'.reg .esp = sys.esp0 - 64) := by
  obtain ⟨next, hint, -⟩ := stub_interrupts hsys hcode hs
  have heax : (sys.enter (syscallGate addr) next (stubState k.number s)).reg .eax = k.number := by
    rw [System.enter_reg (by decide), stubState_eq]
  obtain ⟨back, hcall⟩ := wrapper_enters hsys rfl heax
  obtain ⟨hcs, hss⟩ := @functionCall_selectors entry k back
    (sys.enter (syscallGate addr) next (stubState k.number s))
  refine ⟨kernelCall sys addr entry k next back s, back, hint.trans hcall, rfl, hcs,
    kernelCall_args k next back s, fun hcpl => ?_⟩
  obtain ⟨hesp, hss'⟩ := @System.enter_stack sys (syscallGate addr) next _ (stub_less hcpl)
  refine ⟨hss.trans hss', ?_⟩
  rw [kernelCall, functionCall_esp, hesp, sub_sub]
  rfl

/-- The stub's frame survives the way to the kernel function, and a function that leaves it
alone. -/
theorem stub_frame {k : Syscall} {s : State} {mem : Mem} (hcpl : s.cpl = 3) (next back : UInt32)
    (hapart : ∀ i < 8, ∀ j < 64, s.reg .esp - 4 + UInt32.ofNat i ≠
      sys.esp0 - 64 + UInt32.ofNat j)
    (hkeep : ∀ i < 8, mem (s.reg .esp - 4 + UInt32.ofNat i) =
      (kernelCall sys addr entry k next back s).mem (s.reg .esp - 4 + UInt32.ofNat i)) :
    Stack mem (s.reg .esp - 4) [s.reg .ebx, s.top] := by
  have hpushed := @kernelCall_pushed sys addr entry k s hcpl next back
  have hstub : Stack (s.push (s.reg .ebx)).mem (s.reg .esp - 4) [s.reg .ebx, s.top] := by
    rw [← State.push_esp s (s.reg .ebx)]
    exact @Stack.push s [s.top] ⟨rfl, trivial⟩ (s.reg .ebx) (by simp)
  have hdown : (kernelCall sys addr entry k next back s).reg .esp = sys.esp0 - 64 := by
    have hesp := hpushed.esp
    rw [State.setReg_self] at hesp
    rw [eq_sub_iff_add_eq, ← hesp]
    rfl
  refine hstub.congr fun i hi => ?_
  rw [hkeep i hi, hpushed.mem _ fun j hj => ?_]
  · rw [State.setReg_mem, stubState_eq]
  · rw [hdown]
    exact hapart i hi j hj

/-- A system call of a process returns to its caller what the kernel function returns, if the
function is one of C and leaves the stub's frame alone. The function finds the words that the
caller pushed as its arguments, and all registers but those of the arguments are kept. -/
theorem system_call_returns {k : Syscall} {f : State → State} {s : State} {a b : UInt32}
    (hsys : SyscallCode sys addr entry invalid) (hcode : sys.Block a (doCall k.number) b)
    (hs : s.eip = a) (hext : sys.outside (entry k) = some f) (hcpl : s.cpl = 3)
    (hesp : sys.esp0 ≠ 48)
    (hf : ∀ next back, Cdecl f 3 12 (kernelCall sys addr entry k next back s))
    (hapart : ∀ i < 8, ∀ j < 64, s.reg .esp - 4 + UInt32.ofNat i ≠
      sys.esp0 - 64 + UInt32.ofNat j)
    (hkeep : ∀ next back, ∀ i < 8,
      (f (kernelCall sys addr entry k next back s)).mem (s.reg .esp - 4 + UInt32.ofNat i) =
        (kernelCall sys addr entry k next back s).mem (s.reg .esp - 4 + UInt32.ofNat i)) :
    ∃ next back, sys.Runs s
        (stubReturn s ((f (kernelCall sys addr entry k next back s)).reg .eax)
          (f (kernelCall sys addr entry k next back s)).mem) ∧
      Stack (kernelCall sys addr entry k next back s).mem
        ((kernelCall sys addr entry k next back s).reg .esp) [back, arg s 0, arg s 1, arg s 2] := by
  obtain ⟨next, hint, hrest⟩ := stub_interrupts hsys hcode hs
  have heax : (sys.enter (syscallGate addr) next (stubState k.number s)).reg .eax = k.number := by
    rw [System.enter_reg (by decide), stubState_eq]
  have hesp' : (sys.enter (syscallGate addr) next (stubState k.number s)).reg .esp ≠ 28 := by
    rw [(System.enter_stack (stub_less hcpl)).1]
    intro h
    rw [sub_eq_iff_eq_add] at h
    exact hesp h
  obtain ⟨back, t, hrun, ⟨b', hiret⟩, hbal, hval, hmem⟩ := wrapper_returns hsys rfl heax hext hesp'
    (hf next)
  obtain ⟨c, hiret, -⟩ := hiret.transfer rfl
  have hresume := hiret t _ rfl rfl
  rw [System.iret_enter hbal] at hresume
  refine ⟨next, back, (hint.trans hrun).trans (hresume.trans ?_), kernelCall_args k next back s⟩
  obtain ⟨c₁, hpop, hrest⟩ := hrest.plain rfl
  obtain ⟨c₂, hret, -⟩ := hrest.transfer rfl
  have hreg : ∀ r : Reg, r ∈ savedRegs → r ≠ .esp → t.reg r = (stubState k.number s).reg r :=
    fun r hr hr' => (hbal.reg r hr).trans (System.enter_reg hr')
  obtain ⟨hebx, htop, -⟩ := stub_frame hcpl next back hapart (hkeep next back)
  rw [← kernelCall] at hval hmem
  rw [← hval, ← hmem]
  rw [← hmem] at hebx htop
  rw [stubState_eq] at hreg ⊢
  refine (hpop _ rfl).trans (hret _ _ rfl (congrArg some ?_))
  refine State.ext (funext fun r => ?_) htop rfl rfl rfl rfl
  cases r with
  | eax => rfl
  | ebx => exact hebx
  | esp =>
    have hup : s.reg .esp - 4 + 4 + 4 = s.reg .esp + 4 := by rw [sub_add_cancel]
    exact hup
  | ecx => exact hreg .ecx (by decide) (by decide)
  | edx => exact hreg .edx (by decide) (by decide)
  | esi => exact hreg .esi (by decide) (by decide)
  | edi => exact hreg .edi (by decide) (by decide)
  | ebp => exact hreg .ebp (by decide) (by decide)

/-- A processor with the system calls loaded, whose functions all return 7. -/
def loaded : System where
  code a :=
    if a < 0x201A then place 0x2000 (syscallWrapper (fun k => 0x3000 + k.number) 0x201A) a
    else if a < 0x3000 then place 0x201A invalidSyscall a
    else if a < 0x4100 then place 0x4000 (doCall 1) a
    else if a < 0x5000 then place 0x4100 (doCall 3) a
    else place 0x5000 (start 0x6000 0x4000) a
  idt := gates fun h => if h = .syscallWrapper then 0x2000 else 0x1000
  esp0 := 0x7FE000
  ss0 := 0x18
  outside a := if 0x3000 < a ∧ a ≤ 0x300A ∨ a = 0x6000 then some (returning 7) else none

theorem loaded_code : SyscallCode loaded (fun h => if h = .syscallWrapper then 0x2000 else 0x1000)
    (fun k => 0x3000 + k.number) 0x201A where
  idt := rfl
  wrapper := by decide
  invalid := ⟨0x2023, by decide⟩

/-- A process about to run code. -/
def process (eip eax : UInt32) : State where
  reg
    | .eax => eax
    | .esp => 0x83FFFF0
    | _ => 0
  eip := eip
  eflags := 0x202
  cs := 0x23
  ss := 0x2B
  mem := fun _ => 0

/-- `close` of a descriptor that is none. -/
def closeNone (s : State) : State :=
  returning (if 2 ≤ signed (arg s 0) ∧ signed (arg s 0) ≤ 7 then 0 else -1) s

theorem cdecl_closeNone (args n : ℕ) (s : State) : Cdecl closeNone args n s := by
  have h := cdecl_returning
    (if 2 ≤ signed (arg s 0) ∧ signed (arg s 0) ≤ 7 then 0 else -1) args n s
  exact ⟨h.eip, h.esp, h.reg, h.cs, h.ss, h.stack⟩

/-- A processor with the system calls loaded, and the stub of `close`. -/
def closing : System :=
  { loaded with
    code := fun a => if a < 0x4000 then loaded.code a else place 0x4000 (doCall 6) a
    outside := fun a => if a = 0x3006 then some closeNone else none }

theorem closing_code : SyscallCode closing
    (fun h => if h = .syscallWrapper then 0x2000 else 0x1000) (fun k => 0x3000 + k.number)
    0x201A where
  idt := rfl
  wrapper := by decide
  invalid := ⟨0x2023, by decide⟩

/-- A process that has called the stub of `close` with argument 1. -/
def closer : State :=
  { process 0x4000 0 with
    mem := Mem.write (Mem.write (fun _ => 0) 0x83FFFF0 0x8048100) 0x83FFFF4 1 }

theorem system_call_returns_close : ∃ s, closing.Runs closer s ∧ s.reg .eax = -1 ∧
    s.eip = 0x8048100 := by
  obtain ⟨next, back, hrun, hargs⟩ := system_call_returns (k := .close) (f := closeNone)
    closing_code (s := closer) (b := 0x4008) (by decide) rfl rfl rfl (by decide)
    (fun _ _ => cdecl_closeNone _ _ _) (by decide) (fun _ _ _ _ => rfl)
  obtain ⟨-, h0, -⟩ := stack_args_iff.1 hargs
  have hone : arg closer 0 = 1 := by decide +kernel
  have htop : closer.top = 0x8048100 := by decide +kernel
  refine ⟨_, hrun, ?_, htop⟩
  show (if 2 ≤ signed (arg _ 0) ∧ signed (arg _ 0) ≤ 7 then 0 else -1 : UInt32) = _
  rw [h0, hone]
  decide

/-- Any other number comes back as -1, with the other registers as they were and memory changed on
the kernel stack only. -/
theorem invalid_system_call {s : State} {b : UInt32}
    (hsys : SyscallCode sys addr entry invalid) (hcode : sys.Block s.eip [.int 0x80] b)
    (hcpl : s.cpl = 3) (hnum : ¬(1 ≤ signed (s.reg .eax) ∧ signed (s.reg .eax) ≤ 10)) :
    ∃ mem, sys.Runs s ({ s.setReg .eax (-1) with mem := mem }.goto b) ∧
      ∀ x, (∀ i < 48, x ≠ sys.esp0 - 48 + UInt32.ofNat i) → mem x = s.mem x := by
  obtain ⟨c, hint, hend⟩ := hcode.transfer rfl
  obtain rfl : c = b := hend
  have hring : (syscallGate addr).selector &&& 3 < s.cpl := by
    rw [hcpl]
    exact (by decide : (0x10 : UInt32) &&& 3 < 3)
  have henter := hint s _ rfl (System.transfer_int sys hsys.gate (by
    rw [UInt32.not_lt]
    exact s.cpl_le))
  obtain ⟨a, hpush, hbody⟩ := hsys.wrapper.append
  obtain ⟨-, -, -, hreject⟩ := number_checks
    (s := (pushAll savedRegs (sys.enter (syscallGate addr) c s)).goto a) hbody rfl
  have heax : ((pushAll savedRegs (sys.enter (syscallGate addr) c s)).goto a).reg .eax =
      s.reg .eax := by
    rw [State.goto_reg, pushAll_reg (by decide), System.enter_reg (by decide)]
  rw [heax] at hreject
  obtain ⟨eflags, hreject⟩ := hreject hnum
  obtain ⟨b', hinvalid⟩ := hsys.invalid
  obtain ⟨d, hmov, hexit⟩ := hinvalid.plain rfl
  obtain ⟨d', hpop, hiret⟩ := hexit.append
  have hpushed := @Pushed.pushAll savedRegs _ _ _ (@System.enter_pushed sys _ c _ hring)
  have hmovrun := hreject.trans (hmov _ rfl)
  have hbal : ∀ p : State, X86.Balanced 12 {r | r ≠ .eax} (p.goto a)
      ((({ p.goto a with eflags := eflags }.goto invalid).setReg .eax (-1)).goto d) := by
    intro p
    have hreg : ∀ r : Reg, r ≠ .eax → ((({ p.goto a with eflags := eflags }.goto invalid).setReg
        .eax (-1)).goto d).reg r = (p.goto a).reg r := by
      intro r hr
      rw [State.goto_reg, State.setReg_of_ne _ _ hr]
      rfl
    exact ⟨hreg .esp (by decide), hreg, rfl, rfl, fun ws _ h => h⟩
  obtain ⟨t, hrun, ht, hbal', hmem, hother⟩ := save_restore hpush hpop rfl (by decide) hmovrun rfl
    (hbal _)
  obtain ⟨e, hiret, -⟩ := hiret.transfer rfl
  have hresume := hiret t _ ht rfl
  rw [System.iret_enter hbal'] at hresume
  have hreg : ∀ r, Function.update t.reg .esp (s.reg .esp) r = (s.setReg .eax (-1)).reg r := by
    intro r
    rcases eq_or_ne r .esp with rfl | hesp
    · rw [Function.update_self, State.setReg_of_ne _ _ (by decide)]
    rw [Function.update_of_ne hesp]
    rcases eq_or_ne r .eax with rfl | hne
    · rw [State.setReg_self, hother .eax (by decide) (by decide), State.goto_reg, State.setReg_self]
    · rw [State.setReg_of_ne _ _ hne, hbal'.reg r (Or.inl hne), System.enter_reg hesp]
  rw [funext hreg] at hresume
  refine ⟨t.mem, (henter.trans hrun).trans hresume, fun x hx => ?_⟩
  rw [hmem]
  refine hpushed.mem x fun i hi => ?_
  have hdown : (pushAll savedRegs (sys.enter (syscallGate addr) c s)).reg .esp =
      sys.esp0 - 48 := by
    rw [eq_sub_iff_add_eq, ← s.setReg_self .esp sys.esp0, ← hpushed.esp]
    rfl
  rw [hdown]
  exact hx i hi

theorem invalid_system_call_eleven : ∃ mem, loaded.Runs (process 0x4005 11)
    ({ (process 0x4005 11).setReg .eax (-1) with mem := mem }.goto 0x4006) := by
  obtain ⟨mem, hrun, -⟩ := invalid_system_call (s := process 0x4005 11) (b := 0x4006) loaded_code
    (by decide) rfl (by decide)
  exact ⟨mem, hrun⟩

/-- What `main` returns is the argument the kernel's `halt` is entered with. -/
theorem start_halts {main halt b b' : UInt32} {m : State → State} {s : State}
    (hsys : SyscallCode sys addr entry invalid) (hcode : sys.Block s.eip (start main halt) b)
    (hstub : sys.Block halt (doCall Syscall.halt.number) b') (hext : sys.outside main = some m)
    (hm : ∀ back, Cdecl m 0 0 (callState [] s back main)) :
    ∃ back s' back', sys.Runs s s' ∧ s'.eip = entry .halt ∧
      Stack s'.mem (s'.reg .esp) [back', (m (callState [] s back main)).reg .eax, 0, 0] := by
  obtain ⟨back, hcall, hcode⟩ := hcode.transfer rfl
  obtain ⟨c, hpush, hcode⟩ := hcode.straight [.pushImm 0, .pushImm 0, .push .eax]
    (List.all_eq_true.1 rfl)
  obtain ⟨back', hcallHalt, -⟩ := hcode.transfer rfl
  have hmain := System.runs_outside (s := callState [] s back main) hext
  obtain ⟨heip, -⟩ := (hm back).balanced_nil (by decide)
  refine ⟨back, ?_⟩
  generalize m (callState [] s back main) = t at hmain heip ⊢
  have hargs : ∀ w, Stack ((((t.push 0).push 0).push w).push back').mem
      (((((t.push 0).push 0).push w).push back').reg .esp) [back', w, 0, 0] := fun w =>
    (((stack_push t 0).push 0 (by simp)).push w (by simp)).push back' (by simp)
  have heax : ((t.push 0).push 0).reg .eax = t.reg .eax := by
    rw [State.push_reg _ _ (by decide), State.push_reg _ _ (by decide)]
  have hhalt : sys.Runs t (((((t.push 0).push 0).push (t.reg .eax)).push back').goto halt) := by
    rw [← heax]
    exact (hpush t heip).trans (hcallHalt _ _ rfl rfl)
  have hargs := hargs (t.reg .eax)
  generalize (((t.push 0).push 0).push (t.reg .eax)).push back' = u at hargs hhalt
  obtain ⟨-, h0, h1, h2⟩ := stack_args_iff.1 hargs
  obtain ⟨s', back'', hrun, heip', -, hstack, -⟩ := system_call_enters hsys hstub
    (s := u.goto halt) rfl
  rw [arg_goto, arg_goto, arg_goto, h0, h1, h2] at hstack
  exact ⟨s', back'', (((hcall s _ rfl rfl).trans hmain).trans hhalt).trans hrun, heip', hstack⟩

theorem start_halts_seven : ∃ s', loaded.Runs (process 0x5000 0) s' ∧ s'.eip = 0x3001 := by
  have hstart : loaded.Block 0x5000 (start 0x6000 0x4000) 0x5005 := by decide
  have hstub : loaded.Block 0x4000 (doCall 1) 0x4008 := by decide
  obtain ⟨back, s', back', hrun, heip, hstack⟩ := start_halts (s := process 0x5000 0)
    (m := returning 7) loaded_code hstart hstub rfl fun _ => cdecl_returning _ _ _ _
  exact ⟨s', hrun, heip⟩

/-- A process gets into the kernel by no other interrupt. -/
theorem int_from_process {s : State} (hidt : sys.idt = gates addr) (hcpl : s.cpl = 3) (v : UInt8)
    (next : UInt32) :
    sys.transfer next s (.int v) =
      if v = 0x80 then some (sys.enter (syscallGate addr) next s) else none := by
  have hgate := gates_eq addr v
  split_ifs with hv
  · subst hv
    exact System.transfer_int sys (by rw [hidt, hgate]; rfl) (by rw [UInt32.not_lt]; exact s.cpl_le)
  · rw [if_neg hv] at hgate
    rw [System.transfer, hidt, hgate, Option.bind_some, hcpl]
    rfl

theorem int_from_process_eleven : loaded.transfer 0x4006 (process 0x4005 11) (.int 11) = none :=
  int_from_process rfl rfl 11 0x4006

end MpOS
