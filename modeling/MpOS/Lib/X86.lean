import Mathlib

/-!
# A 32-bit processor

The part of the 32-bit x86 that system call stubs and interrupt wrappers are written in :
pushes and pops, a few moves and compares, calls, gates, and `iret`. Segments are flat,
and the privilege level is that of the code selector. Code and gates do not change while
the processor runs. A function that is not written in this part is a transformer of the
state (`System.outside`), which the processor applies when it gets to its address.
-/

namespace X86

/-- Memory, by address. -/
abbrev Mem := UInt32 → UInt8

namespace Mem

/-- Load a little-endian word. -/
def read (m : Mem) (a : UInt32) : UInt32 :=
  (m a).toUInt32 ||| (m (a + 1)).toUInt32 <<< 8 ||| (m (a + 2)).toUInt32 <<< 16 |||
    (m (a + 3)).toUInt32 <<< 24

/-- Store a little-endian word. -/
def write (m : Mem) (a w : UInt32) : Mem := fun b =>
  if b = a then w.toUInt8
  else if b = a + 1 then (w >>> 8).toUInt8
  else if b = a + 2 then (w >>> 16).toUInt8
  else if b = a + 3 then (w >>> 24).toUInt8
  else m b

end Mem

/-- The general registers. -/
inductive Reg
  | eax
  | ebx
  | ecx
  | edx
  | esi
  | edi
  | ebp
  | esp
  deriving DecidableEq

/-- The processor and its memory. -/
@[ext] structure State where
  reg : Reg → UInt32
  eip : UInt32
  eflags : UInt32
  cs : UInt32
  ss : UInt32
  mem : Mem

namespace State

variable (s : State)

/-- Set a register. -/
def setReg (r : Reg) (w : UInt32) : State :=
  { s with reg := Function.update s.reg r w }

/-- Push a word. -/
def push (w : UInt32) : State :=
  { s.setReg .esp (s.reg .esp - 4) with mem := s.mem.write (s.reg .esp - 4) w }

/-- Go on at an address. -/
def goto (a : UInt32) : State :=
  { s with eip := a }

/-- The word on top of the stack. -/
def top : UInt32 :=
  s.mem.read (s.reg .esp)

/-- Drop the word on top of the stack. -/
def drop : State :=
  s.setReg .esp (s.reg .esp + 4)

/-- The privilege level. -/
def cpl : UInt32 :=
  s.cs &&& 3

@[simp] theorem setReg_self (r : Reg) (w : UInt32) : (s.setReg r w).reg r = w := by
  simp only [setReg, Function.update_self]

/-- A write of one register leaves the others. -/
theorem setReg_of_ne {r q : Reg} (w : UInt32) (h : q ≠ r) : (s.setReg r w).reg q = s.reg q := by
  simp only [setReg, Function.update_of_ne h]

@[simp] theorem setReg_mem (r : Reg) (w : UInt32) : (s.setReg r w).mem = s.mem :=
  rfl

/-- The privilege level is two bits of the code selector. -/
theorem cpl_le : s.cpl ≤ 3 := by
  rw [UInt32.le_iff_toNat_le, cpl, UInt32.toNat_and]
  exact Nat.and_le_right

@[simp] theorem goto_reg (a : UInt32) : (s.goto a).reg = s.reg :=
  rfl

@[simp] theorem push_mem (w : UInt32) : (s.push w).mem = s.mem.write (s.reg .esp - 4) w :=
  rfl

@[simp] theorem push_esp (w : UInt32) : (s.push w).reg .esp = s.reg .esp - 4 := by
  simp only [push, setReg_self]

/-- A push moves `esp` only. -/
theorem push_reg (w : UInt32) {r : Reg} (h : r ≠ .esp) : (s.push w).reg r = s.reg r :=
  s.setReg_of_ne _ h

@[simp] theorem drop_mem : s.drop.mem = s.mem :=
  rfl

@[simp] theorem drop_esp : s.drop.reg .esp = s.reg .esp + 4 :=
  s.setReg_self _ _

/-- So does dropping a word. -/
theorem drop_reg {r : Reg} (h : r ≠ .esp) : s.drop.reg r = s.reg r :=
  s.setReg_of_ne _ h

end State

/-! ## Flags -/

/-- A bit of a word. -/
def bit (w : UInt32) (i : ℕ) : Bool :=
  w.toNat.testBit i

/-- The sign of a word. -/
def neg (w : UInt32) : Bool :=
  bit w 31

/-- The carry, parity, adjust, zero, sign and overflow flags. -/
def arithFlags (cf pf af zf sf of : Bool) : UInt32 :=
  (if cf then 0x1 else 0) ||| (if pf then 0x4 else 0) ||| (if af then 0x10 else 0) |||
    (if zf then 0x40 else 0) ||| (if sf then 0x80 else 0) ||| (if of then 0x800 else 0)

/-- Whether the low byte has an even number of ones. -/
def parity (w : UInt32) : Bool :=
  ((List.range 8).countP fun i => bit w i) % 2 = 0

/-- The flags after a result, the other flags left as they are. -/
def setArith (eflags flags : UInt32) : UInt32 :=
  eflags &&& 0xFFFFF72A ||| flags

/-- The flags of `a - b`. -/
def subFlags (a b : UInt32) : UInt32 :=
  arithFlags (a < b) (parity (a - b)) (a &&& 15 < b &&& 15) (a = b) (neg (a - b))
    (neg a ≠ neg b ∧ neg (a - b) ≠ neg a)

/-- The flags of `a + b`. -/
def addFlags (a b : UInt32) : UInt32 :=
  arithFlags (a + b < a) (parity (a + b)) (15 < (a &&& 15) + (b &&& 15)) (a + b = 0)
    (neg (a + b)) (neg a = neg b ∧ neg (a + b) ≠ neg a)

/-- Of the flags that arithmetic defines, the ones it computed. -/
theorem bit_setArith {i : ℕ} (h : bit 0xFFFFF72A i = false) (eflags flags : UInt32) :
    bit (setArith eflags flags) i = bit flags i := by
  unfold bit at h
  rw [bit, setArith, UInt32.toNat_or, UInt32.toNat_and, Nat.testBit_or, Nat.testBit_and, h,
    Bool.and_false, Bool.false_or, bit]

/-- The three flags the conditional jumps read, out of the packed word. -/
theorem bit_arithFlags (cf pf af zf sf of : Bool) :
    bit (arithFlags cf pf af zf sf of) 6 = zf ∧ bit (arithFlags cf pf af zf sf of) 7 = sf ∧
      bit (arithFlags cf pf af zf sf of) 11 = of := by
  revert cf pf af zf sf of
  decide

/-- The sign of a word is its top bit. -/
theorem neg_eq (w : UInt32) : neg w = decide (2 ^ 31 ≤ w.toNat) := by
  have h := w.toNat_lt
  rw [neg, bit, Nat.testBit_eq_decide_div_mod_eq]
  congr 1
  rw [eq_iff_iff]
  omega

/-- The signed value of a word. -/
def signed (w : UInt32) : ℤ :=
  w.toInt32.toInt

/-- The signed reading of a word. -/
theorem signed_eq (w : UInt32) :
    signed w = (w.toNat : ℤ) - if 2 ^ 31 ≤ w.toNat then 2 ^ 32 else 0 := by
  have h : w.toInt32.toInt = w.toBitVec.toInt := rfl
  rw [signed, h, BitVec.toInt_eq_toNat_cond]
  have hb : w.toBitVec.toNat = w.toNat := rfl
  rw [hb]
  split_ifs <;> omega

/-- The sign and overflow flags of a comparison tell the smaller of two signed words. -/
theorem less_iff (a b : UInt32) :
    (neg (a - b) ≠ decide (neg a ≠ neg b ∧ neg (a - b) ≠ neg a)) ↔ signed a < signed b := by
  have ha := a.toNat_lt
  have hb := b.toNat_lt
  have hsub : (a - b).toNat = (2 ^ 32 - b.toNat + a.toNat) % 2 ^ 32 := UInt32.toNat_sub a b
  rw [signed_eq, signed_eq, neg_eq, neg_eq, neg_eq]
  by_cases hna : 2 ^ 31 ≤ a.toNat
  · by_cases hnb : 2 ^ 31 ≤ b.toNat
    · simp only [hna, hnb, if_true, decide_true, ne_eq, not_true_eq_false, false_and, decide_false]
      simp only [decide_eq_false_iff_not, not_not]
      omega
    · simp only [hna, hnb, if_true, if_false, decide_true, decide_false]
      simp
      omega
  · by_cases hnb : 2 ^ 31 ≤ b.toNat
    · simp only [hna, hnb, if_true, if_false, decide_true, decide_false]
      simp
      omega
    · simp only [hna, hnb, if_false, decide_false, ne_eq, not_true_eq_false, false_and]
      simp only [decide_eq_false_iff_not, not_not]
      omega

/-- Behind a comparison, the flags that `jl` looks at. -/
theorem sign_ne_overflow_iff (eflags a b : UInt32) :
    bit (setArith eflags (subFlags a b)) 7 ≠ bit (setArith eflags (subFlags a b)) 11 ↔
      signed a < signed b := by
  rw [bit_setArith (by decide), bit_setArith (by decide), subFlags, (bit_arithFlags ..).2.1,
    (bit_arithFlags ..).2.2]
  exact less_iff a b

/-- Signed and unsigned readings agree on equality. -/
theorem signed_inj {a b : UInt32} : signed a = signed b ↔ a = b := by
  have ha := a.toNat_lt
  have hb := b.toNat_lt
  rw [signed_eq, signed_eq, ← UInt32.toNat_inj]
  split_ifs <;> omega

/-- Behind a comparison, the flags that `jg` looks at. -/
theorem not_zero_and_iff (eflags a b : UInt32) :
    (!bit (setArith eflags (subFlags a b)) 6 ∧
      bit (setArith eflags (subFlags a b)) 7 = bit (setArith eflags (subFlags a b)) 11) ↔
      signed b < signed a := by
  have hless := (sign_ne_overflow_iff eflags a b).not
  rw [not_not] at hless
  rw [hless, bit_setArith (by decide), subFlags, (bit_arithFlags ..).1]
  simp only [Bool.not_eq_true', decide_eq_false_iff_not, ← signed_inj]
  omega

/-! ## Instructions -/

/-- The instructions. Operands are in the order of the assembler, the target last. A
`callTable` jumps through a table of the code that does not change. -/
inductive Instr
  | push (r : Reg)
  | pushImm (w : UInt32)
  | pushf
  | pop (r : Reg)
  | popf
  | movImm (w : UInt32) (r : Reg)
  | load (disp : UInt32) (base r : Reg)
  | cmpImm (w : UInt32) (r : Reg)
  | addImm (w : UInt32) (r : Reg)
  | cld
  | cli
  | je (target : UInt32)
  | jl (target : UInt32)
  | jg (target : UInt32)
  | call (target : UInt32)
  | callTable (table : List UInt32) (index : Reg)
  | ret
  | int (vector : UInt8)
  | iret

/-- A gate of the interrupt descriptor table. -/
structure Gate where
  offset : UInt32
  selector : UInt32
  dpl : UInt32
  trap : Bool
  deriving DecidableEq

/-- The gate a descriptor of the table holds. Descriptors that are not present, and those of other
types, hold none. -/
def Gate.decode (w : BitVec 64) : Option Gate :=
  if w.getLsbD 47 ∧ w.extractLsb' 41 4 = 7 then
    some {
      offset := ⟨w.extractLsb' 48 16 ++ w.extractLsb' 0 16⟩
      selector := ⟨(w.extractLsb' 16 16).setWidth 32⟩
      dpl := ⟨(w.extractLsb' 45 2).setWidth 32⟩
      trap := w.getLsbD 40 }
  else none

/-- What the processor runs with : the instruction at an address with the address behind it,
the gates, the kernel stack of the task state segment, and the functions of other code. -/
structure System where
  code : UInt32 → Option (Instr × UInt32)
  idt : UInt8 → Option Gate
  esp0 : UInt32
  ss0 : UInt32
  outside : UInt32 → Option (State → State)

/-- The effect of the instructions that go on with the next one. `cli` and `popf` are those of
kernel code, which may set the interrupt flag. -/
def plain : Instr → Option (State → State)
  | .push r => some fun s => s.push (s.reg r)
  | .pushImm w => some fun s => s.push w
  | .pushf => some fun s => s.push s.eflags
  | .pop r => some fun s => s.drop.setReg r s.top
  | .popf => some fun s => { s.drop with eflags := s.top }
  | .movImm w r => some fun s => s.setReg r w
  | .load disp base r => some fun s => s.setReg r (s.mem.read (s.reg base + disp))
  | .cmpImm w r => some fun s => { s with eflags := setArith s.eflags (subFlags (s.reg r) w) }
  | .addImm w r => some fun s =>
    { s.setReg r (s.reg r + w) with eflags := setArith s.eflags (addFlags (s.reg r) w) }
  | .cld => some fun s => { s with eflags := s.eflags &&& 0xFFFFFBFF }
  | .cli => some fun s => { s with eflags := s.eflags &&& 0xFFFFFDFF }
  | _ => none

/-- A plain instruction neither reads nor writes `eip`. -/
theorem plain_goto {i : Instr} {f : State → State} (h : plain i = some f) (s : State)
    (a : UInt32) : f (s.goto a) = (f s).goto a := by
  cases i <;> simp only [plain, Option.some.injEq, reduceCtorEq] at h <;> subst h <;> rfl

/-- The effect of instructions that go on with the next one. -/
def effects : List Instr → State → State
  | [], s => s
  | i :: is, s =>
    match plain i with
    | some f => effects is (f s)
    | none => s

/-- Nor does a block of them. -/
theorem effects_goto (is : List Instr) (s : State) (a : UInt32) :
    effects is (s.goto a) = (effects is s).goto a := by
  induction is generalizing s with
  | nil => rfl
  | cons i is ih =>
    rw [effects, effects]
    cases h : plain i with
    | none => rfl
    | some f =>
      simp only [plain_goto h]
      exact ih (f s)

namespace System

variable (sys : System)

/-- Change to the kernel stack and save the old one there. -/
def switchStack (s : State) : State :=
  ({ s.setReg .esp sys.esp0 with ss := sys.ss0 }.push s.ss).push (s.reg .esp)

/-- Go through a gate, from a less privileged level on the kernel stack. An interrupt gate turns
interrupts off. -/
def enter (g : Gate) (back : UInt32) (s : State) : State :=
  let s' := if g.selector &&& 3 < s.cpl then sys.switchStack s else s
  { ((s'.push s.eflags).push s.cs).push back with
    eip := g.offset
    cs := g.selector
    eflags := s.eflags &&& if g.trap then 0xFFFCBEFF else 0xFFFCBCFF }

/-- `iret`. -/
def iret (s : State) : State :=
  let s₁ := s.drop
  let s₂ := s₁.drop
  let s₃ := { s₂.drop with eip := s.top, cs := s₁.top, eflags := s₂.top }
  if s.cpl < s₁.top &&& 3 then
    { s₃.setReg .esp s₃.top with ss := s₃.drop.top }
  else s₃

/-- The effect of the other instructions. -/
def transfer (next : UInt32) (s : State) : Instr → Option State
  | .je target => some { s with eip := if bit s.eflags 6 then target else next }
  | .jl target => some { s with eip := if bit s.eflags 7 ≠ bit s.eflags 11 then target else next }
  | .jg target =>
    some { s with eip := if !bit s.eflags 6 ∧ bit s.eflags 7 = bit s.eflags 11 then target
      else next }
  | .call target => some { s.push next with eip := target }
  | .callTable table index =>
    table[(s.reg index).toNat]?.map fun target => { s.push next with eip := target }
  | .ret => some { s.drop with eip := s.top }
  | .int vector =>
    (sys.idt vector).bind fun g => if g.dpl < s.cpl then none else some (sys.enter g next s)
  | .iret => some (iret s)
  | _ => none

/-- A jump that is not taken. -/
theorem transfer_je {s : State} {target next : UInt32} (h : bit s.eflags 6 = false) :
    sys.transfer next s (.je target) = some (s.goto next) := by
  simp only [transfer, h, Bool.false_eq_true, if_false, State.goto]

/-- `jl` falls through when the sign and overflow flags agree. -/
theorem transfer_jl {s : State} {target next : UInt32} (h : bit s.eflags 7 = bit s.eflags 11) :
    sys.transfer next s (.jl target) = some (s.goto next) := by
  simp only [transfer, h, ne_eq, not_true_eq_false, if_false, State.goto]

/-- `jg` falls through on zero or a sign that differs from the overflow. -/
theorem transfer_jg {s : State} {target next : UInt32}
    (h : ¬(!bit s.eflags 6 ∧ bit s.eflags 7 = bit s.eflags 11)) :
    sys.transfer next s (.jg target) = some (s.goto next) := by
  simp only [transfer, h, if_false, State.goto]

/-- A jump that is taken. -/
theorem transfer_jl_taken {s : State} {target next : UInt32}
    (h : bit s.eflags 7 ≠ bit s.eflags 11) :
    sys.transfer next s (.jl target) = some (s.goto target) := by
  simp only [transfer, h, ne_eq, not_false_eq_true, if_true, State.goto]

/-- `jg` jumps otherwise. -/
theorem transfer_jg_taken {s : State} {target next : UInt32}
    (h : !bit s.eflags 6 ∧ bit s.eflags 7 = bit s.eflags 11) :
    sys.transfer next s (.jg target) = some (s.goto target) := by
  simp only [transfer, h, and_self, if_true, State.goto]

/-- An indirect call pushes the return address and enters the table's entry. -/
theorem transfer_callTable {s : State} {table : List UInt32} {index : Reg} {target next : UInt32}
    (h : table[(s.reg index).toNat]? = some target) :
    sys.transfer next s (.callTable table index) = some ((s.push next).goto target) := by
  simp only [transfer, h, Option.map_some, State.goto]

/-- `int` enters the gate when its privilege allows the caller. -/
theorem transfer_int {s : State} {g : Gate} {vector : UInt8} {next : UInt32}
    (h : sys.idt vector = some g) (hdpl : ¬g.dpl < s.cpl) :
    sys.transfer next s (.int vector) = some (sys.enter g next s) := by
  simp only [transfer, h, Option.bind_some, hdpl, if_false]

/-- A gate does not look at the instruction pointer. -/
theorem enter_goto (g : Gate) (back a : UInt32) (s : State) :
    sys.enter g back (s.goto a) = sys.enter g back s := by
  by_cases h : g.selector &&& 3 < s.cpl
  · have h' : g.selector &&& 3 < (s.goto a).cpl := h
    simp only [enter, if_pos h, if_pos h']
    rfl
  · have h' : ¬g.selector &&& 3 < (s.goto a).cpl := h
    simp only [enter, if_neg h, if_neg h']
    rfl

/-- One step. -/
def step (s : State) : Option State :=
  match sys.outside s.eip with
  | some f => some (f s)
  | none =>
    (sys.code s.eip).bind fun p =>
      match plain p.1 with
      | some f => some ((f s).goto p.2)
      | none => sys.transfer p.2 s p.1

/-- Any number of steps. -/
def Runs : State → State → Prop :=
  Relation.ReflTransGen fun s s' => sys.step s = some s'

/-- The instructions lie from one address to another. -/
def Block : UInt32 → List Instr → UInt32 → Prop
  | a, [], b => a = b
  | a, i :: is, b => sys.outside a = none ∧ ∃ c, sys.code a = some (i, c) ∧ Block c is b

deriving instance DecidableEq for Instr

instance decidableBlock (sys : System) : ∀ a is b, Decidable (sys.Block a is b)
  | a, [], b => inferInstanceAs (Decidable (a = b))
  | a, i :: is, b =>
    match hext : sys.outside a, hcode : sys.code a with
    | some _, _ => .isFalse fun h => by
      simp only [Block, hext, reduceCtorEq, false_and] at h
    | none, none => .isFalse fun h => by
      simp only [Block, hcode, reduceCtorEq, false_and, exists_false, and_false] at h
    | none, some (j, c) =>
      have := decidableBlock sys c is b
      decidable_of_iff (j = i ∧ sys.Block c is b) (by
        simp only [Block, hext, hcode, Option.some.injEq, Prod.mk.injEq, true_and]
        constructor
        · rintro ⟨rfl, h⟩
          exact ⟨c, ⟨rfl, rfl⟩, h⟩
        · rintro ⟨d, ⟨rfl, rfl⟩, h⟩
          exact ⟨rfl, h⟩)

end System

/-- Instructions placed at an address, a byte each. -/
def place (a : UInt32) (is : List Instr) (b : UInt32) : Option (Instr × UInt32) :=
  is[(b - a).toNat]?.map fun i => (i, b + 1)

end X86
