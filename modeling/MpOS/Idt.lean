import MpOS.Lib.X86

/-!
# The interrupt descriptor table (`_idt.h`, `x86_desc.h`)

`initialize_idt` fills the table of 256 descriptors : first the fields that do not depend
on a handler, then the offsets. `gates` is what the processor reads back from it.
-/

namespace MpOS

open X86

/-- `KERNEL_CS`. -/
def kernelCs : BitVec 16 :=
  0x10

/-- `SYS_CALL`. -/
def sysCall : ℕ :=
  128

/-! ## Descriptors -/

/-- `idt_desc_t`. -/
structure IdtDesc where
  offset_15_00 : BitVec 16 := 0
  segSelector : BitVec 16 := 0
  reserved4 : BitVec 8 := 0
  reserved3 : BitVec 1 := 0
  reserved2 : BitVec 1 := 0
  reserved1 : BitVec 1 := 0
  size : BitVec 1 := 0
  reserved0 : BitVec 1 := 0
  dpl : BitVec 2 := 0
  present : BitVec 1 := 0
  offset_31_16 : BitVec 16 := 0

namespace IdtDesc

/-- `val`, the fields of the union as they lie in memory. -/
def val (d : IdtDesc) : BitVec 64 :=
  (d.offset_31_16 ++ d.present ++ d.dpl ++ d.reserved0 ++ d.size ++ d.reserved1 ++ d.reserved2 ++
    d.reserved3 ++ d.reserved4 ++ d.segSelector ++ d.offset_15_00).cast rfl

/-- `SET_IDT_ENTRY`. -/
def setEntry (d : IdtDesc) (handler : UInt32) : IdtDesc :=
  { d with
    offset_31_16 := ((handler &&& 0xFFFF0000) >>> 16).toBitVec.setWidth 16
    offset_15_00 := (handler &&& 0xFFFF).toBitVec.setWidth 16 }

end IdtDesc

/-- The table. -/
abbrev Idt :=
  ℕ → IdtDesc

/-- The functions the descriptors lead to. -/
inductive Handler
  | divideByZero
  | debugError
  | nonMaskableInterrupt
  | breakpoint
  | overflow
  | boundRangeExcess
  | invalidOpcode
  | deviceUnavailable
  | doubleFault
  | exceptionNine
  | invalidTss
  | segmentNotPresent
  | stackSegmentFault
  | generalProtectionFault
  | pageFault
  | floatingPointException
  | alignmentCheck
  | machineCheck
  | floatingPointExceptionSimd
  | virtualizationException
  | securityException
  | rtcWrapper
  | keyWrapper
  | masterWrapper
  | slaveWrapper
  | pitWrapper
  | generalWrapper
  | syscallWrapper
  deriving DecidableEq

/-! ## `initialize_idt` -/

/-- The body of the first loop. -/
def initDesc (i : ℕ) (d : IdtDesc) : IdtDesc :=
  let d := { d with
    dpl := 0, present := 1, segSelector := kernelCs, size := 1
    reserved0 := 0, reserved1 := 1, reserved2 := 1, reserved3 := 0, reserved4 := 0 }
  let d := if i ≠ 9 ∨ i ≠ 15 ∨ i ≠ 30 then { d with reserved3 := 1 } else d
  let d := if i = 0x21 ∨ i = 0x28 ∨ i = 0x20 ∨ i = 0x22 ∨ i = 0x20 then
      { d with present := 1, reserved3 := 0 }
    else d
  if i = sysCall then { d with present := 1, dpl := 3 } else d

/-- The entries set one by one, in order. -/
def handlerEntries : List (ℕ × Handler) :=
  [(0, .divideByZero), (1, .debugError), (2, .nonMaskableInterrupt), (3, .breakpoint),
    (4, .overflow), (5, .boundRangeExcess), (6, .invalidOpcode), (7, .deviceUnavailable),
    (8, .doubleFault), (9, .exceptionNine), (10, .invalidTss), (11, .segmentNotPresent),
    (12, .stackSegmentFault), (13, .generalProtectionFault), (14, .pageFault),
    (16, .floatingPointException), (17, .alignmentCheck), (18, .machineCheck),
    (19, .floatingPointExceptionSimd), (20, .virtualizationException), (30, .securityException),
    (0x28, .rtcWrapper), (0x21, .keyWrapper), (0x20, .masterWrapper), (0x22, .slaveWrapper),
    (0x20, .pitWrapper)]

/-- The handler the second loop sets. -/
def fillHandler (i : ℕ) : Option Handler :=
  if i ≠ 0x28 ∧ i ≠ 0x21 ∧ i ≠ 0x20 ∧ i ≠ 0x22 ∧ i ≠ sysCall ∧ i ≠ 0x20 then some .generalWrapper
  else if i = sysCall then some .syscallWrapper
  else none

/-- Set the offset of an entry. -/
def setIdtEntry (addr : Handler → UInt32) (idt : Idt) (i : ℕ) (h : Handler) : Idt :=
  Function.update idt i ((idt i).setEntry (addr h))

/-- `initialize_idt`, with the addresses of the handlers. -/
def initializeIdt (addr : Handler → UInt32) (idt : Idt) : Idt :=
  let idt := (List.range 256).foldl (fun idt i => Function.update idt i (initDesc i (idt i))) idt
  let idt := handlerEntries.foldl (fun idt e => setIdtEntry addr idt e.1 e.2) idt
  (List.range' 32 224).foldl (fun idt i =>
    match fillHandler i with
    | some h => setIdtEntry addr idt i h
    | none => idt) idt

/-- What the processor finds in the table, which is zero before it is filled. -/
def gates (addr : Handler → UInt32) (v : UInt8) : Option Gate :=
  Gate.decode (initializeIdt addr (fun _ => {}) v.toNat).val

/-- The handlers of the first vectors, which are those of the processor's exceptions. Vectors 15,
21 to 29 and 31 have none. -/
def exceptionHandlers : List (Option Handler) :=
  [some .divideByZero, some .debugError, some .nonMaskableInterrupt, some .breakpoint,
    some .overflow, some .boundRangeExcess, some .invalidOpcode, some .deviceUnavailable,
    some .doubleFault, some .exceptionNine, some .invalidTss, some .segmentNotPresent,
    some .stackSegmentFault, some .generalProtectionFault, some .pageFault, none,
    some .floatingPointException, some .alignmentCheck, some .machineCheck,
    some .floatingPointExceptionSimd, some .virtualizationException, none, none, none, none, none,
    none, none, none, none, some .securityException, none]

/-- The handler of a vector. -/
def vectorHandler (v : ℕ) : Option Handler :=
  if h : v < exceptionHandlers.length then exceptionHandlers[v]
  else if v = 0x20 then some .pitWrapper
  else if v = 0x21 then some .keyWrapper
  else if v = 0x22 then some .slaveWrapper
  else if v = 0x28 then some .rtcWrapper
  else if v = 0x80 then some .syscallWrapper
  else some .generalWrapper

/-! ## What a descriptor says -/

namespace IdtDesc

variable {d : IdtDesc}

theorem val_fields : d.val.extractLsb' 48 16 = d.offset_31_16 ∧
    d.val.extractLsb' 0 16 = d.offset_15_00 ∧ d.val.extractLsb' 16 16 = d.segSelector ∧
      d.val.extractLsb' 45 2 = d.dpl := by
  refine ⟨?_, ?_, ?_, ?_⟩ <;>
    simp (disch := decide) only [val, BitVec.extractLsb'_cast, BitVec.extractLsb'_append_eq_of_le,
      BitVec.extractLsb'_append_eq_of_add_le, Nat.reduceSub, BitVec.extractLsb'_eq_self]

theorem val_flags : d.val.getLsbD 47 = d.present.getLsbD 0 ∧
    d.val.getLsbD 40 = d.reserved3.getLsbD 0 ∧
      d.val.extractLsb' 41 4 = d.reserved0 ++ d.size ++ d.reserved1 ++ d.reserved2 := by
  refine ⟨?_, ?_, BitVec.eq_of_getLsbD_eq fun i hi => ?_⟩
  · simp only [val, BitVec.getLsbD_cast, BitVec.getLsbD_append]
    simp
  · simp only [val, BitVec.getLsbD_cast, BitVec.getLsbD_append]
    simp
  · simp only [BitVec.getLsbD_extractLsb', val, BitVec.getLsbD_cast, BitVec.getLsbD_append]
    interval_cases i <;> simp

/-- The processor reads a present 32-bit descriptor as it was written. -/
theorem decode_val (hp : d.present = 1) (hs : d.size = 1) (h0 : d.reserved0 = 0)
    (h1 : d.reserved1 = 1) (h2 : d.reserved2 = 1) :
    Gate.decode d.val = some {
      offset := ⟨d.offset_31_16 ++ d.offset_15_00⟩
      selector := ⟨d.segSelector.setWidth 32⟩
      dpl := ⟨d.dpl.setWidth 32⟩
      trap := d.reserved3.getLsbD 0 } := by
  obtain ⟨hhigh, hlow, hsel, hdpl⟩ := @val_fields d
  obtain ⟨hpresent, htrap, htype⟩ := @val_flags d
  rw [Gate.decode, hpresent, htype, hp, hs, h0, h1, h2, hhigh, hlow, hsel, hdpl, htrap]
  rfl

/-- `SET_IDT_ENTRY` splits an address, and the processor puts it together again. -/
theorem offset_setEntry (h : UInt32) :
    (d.setEntry h).offset_31_16 ++ (d.setEntry h).offset_15_00 = h.toBitVec := by
  have hhigh : (d.setEntry h).offset_31_16 = h.toBitVec.extractLsb' 16 16 := by
    refine BitVec.eq_of_getLsbD_eq fun i hi => ?_
    rw [setEntry]
    interval_cases i <;> simp
  have hlow : (d.setEntry h).offset_15_00 = h.toBitVec.extractLsb' 0 16 := by
    refine BitVec.eq_of_getLsbD_eq fun i hi => ?_
    rw [setEntry]
    interval_cases i <;> simp
  rw [hhigh, hlow]
  exact BitVec.extractLsb'_append_extractLsb'

@[simp] theorem setEntry_segSelector (h : UInt32) : (d.setEntry h).segSelector = d.segSelector :=
  rfl

@[simp] theorem setEntry_dpl (h : UInt32) : (d.setEntry h).dpl = d.dpl :=
  rfl

@[simp] theorem setEntry_reserved3 (h : UInt32) : (d.setEntry h).reserved3 = d.reserved3 :=
  rfl

end IdtDesc

/-! ## The loops -/

section Loops

variable {addr : Handler → UInt32}

/-- A loop over different indices does its body at each of them. -/
theorem foldl_update {α : Type*} (f : ℕ → α → α) {is : List ℕ} (h : is.Nodup) (t : ℕ → α)
    (j : ℕ) : is.foldl (fun t i => Function.update t i (f i (t i))) t j =
      if j ∈ is then f j (t j) else t j := by
  induction is generalizing t with
  | nil => rfl
  | cons i is ih =>
    obtain ⟨hi, hnodup⟩ := List.nodup_cons.1 h
    rw [List.foldl_cons, ih hnodup]
    rcases eq_or_ne j i with rfl | hj
    · rw [if_neg hi, Function.update_self, if_pos List.mem_cons_self]
    · simp only [Function.update_of_ne hj, List.mem_cons, hj, false_or]

/-- The last handler set at an index. -/
def lastHandler (es : List (ℕ × Handler)) (j : ℕ) : Option Handler :=
  es.foldl (fun o e => if e.1 = j then some e.2 else o) none

/-- What is left of the handlers set one after another. -/
theorem foldl_setIdtEntry (es : List (ℕ × Handler)) (idt : Idt) (j : ℕ) :
    es.foldl (fun idt e => setIdtEntry addr idt e.1 e.2) idt j =
      match lastHandler es j with
      | some h => (idt j).setEntry (addr h)
      | none => idt j := by
  induction es using List.reverseRecOn with
  | nil => rfl
  | append_singleton es e ih =>
    rw [List.foldl_append, List.foldl_cons, List.foldl_nil, setIdtEntry, lastHandler,
      List.foldl_append, List.foldl_cons, List.foldl_nil, ← lastHandler]
    rcases eq_or_ne e.1 j with rfl | hj
    · rw [Function.update_self, ih, if_pos rfl]
      cases lastHandler es e.1 <;> rfl
    · rw [Function.update_of_ne hj.symm, ih, if_neg hj]

/-- The entries the second loop sets. -/
def fillEntries : List (ℕ × Handler) :=
  (List.range' 32 224).filterMap fun i => (fillHandler i).map (i, ·)

theorem foldl_fillHandler (is : List ℕ) (idt : Idt) :
    is.foldl (fun idt i =>
      match fillHandler i with
      | some h => setIdtEntry addr idt i h
      | none => idt) idt =
    (is.filterMap fun i => (fillHandler i).map (i, ·)).foldl
      (fun idt e => setIdtEntry addr idt e.1 e.2) idt := by
  induction is generalizing idt with
  | nil => rfl
  | cons i is ih =>
    rw [List.foldl_cons, ih]
    cases h : fillHandler i with
    | none => rw [List.filterMap_cons_none (by rw [h]; rfl)]
    | some _ => rw [List.filterMap_cons_some (by rw [h]; rfl), List.foldl_cons]

end Loops

theorem lastHandler_entries :
    ∀ v : Fin 256, lastHandler (handlerEntries ++ fillEntries) v = vectorHandler v := by
  decide +kernel

/-- The descriptor of a vector before its offset is set. -/
def filledDesc (device call : Bool) : IdtDesc where
  present := 1
  segSelector := kernelCs
  size := 1
  reserved1 := 1
  reserved2 := 1
  reserved3 := if device then 0 else 1
  dpl := if call then 3 else 0

/-- The vectors of the devices. -/
def deviceVectors : List UInt8 :=
  [0x20, 0x21, 0x22, 0x28]

/-- The test for the reserved exceptions holds of every vector. -/
theorem initDesc_eq (v : UInt8) :
    initDesc v.toNat {} = filledDesc (v ∈ deviceVectors) (v = 0x80) := by
  have hreserved : v.toNat ≠ 9 ∨ v.toNat ≠ 15 ∨ v.toNat ≠ 30 := by omega
  have hdevice : (v.toNat = 0x21 ∨ v.toNat = 0x28 ∨ v.toNat = 0x20 ∨ v.toNat = 0x22 ∨
      v.toNat = 0x20) ↔ v ∈ deviceVectors := by
    simp only [deviceVectors, List.mem_cons, List.not_mem_nil, or_false, ← UInt8.toNat_inj]
    simp only [UInt8.reduceToNat]
    omega
  have hcall : v.toNat = sysCall ↔ v = 0x80 := by
    rw [← UInt8.toNat_inj]
    rfl
  simp only [initDesc, if_pos hreserved, hdevice, hcall, filledDesc, decide_eq_true_eq]
  split_ifs <;> rfl

theorem decode_filledDesc (device call : Bool) (o : Option UInt32) :
    Gate.decode (o.elim (filledDesc device call) (filledDesc device call).setEntry).val = some {
      offset := o.getD 0
      selector := 0x10
      dpl := if call then 3 else 0
      trap := !device } := by
  cases o with
  | none =>
    rw [Option.elim_none, IdtDesc.decode_val rfl rfl rfl rfl rfl]
    cases device <;> cases call <;> rfl
  | some a =>
    rw [Option.elim_some, IdtDesc.decode_val rfl rfl rfl rfl rfl, IdtDesc.offset_setEntry,
      IdtDesc.setEntry_segSelector, IdtDesc.setEntry_dpl, IdtDesc.setEntry_reserved3]
    cases device <;> cases call <;> rfl

theorem initializeIdt_apply (addr : Handler → UInt32) (v : UInt8) :
    initializeIdt addr (fun _ => {}) v.toNat =
      ((vectorHandler v.toNat).map addr).elim (filledDesc (v ∈ deviceVectors) (v = 0x80))
        (filledDesc (v ∈ deviceVectors) (v = 0x80)).setEntry := by
  have hlast : lastHandler (handlerEntries ++ fillEntries) v.toNat = vectorHandler v.toNat :=
    lastHandler_entries ⟨v.toNat, v.toNat_lt⟩
  rw [initializeIdt, foldl_fillHandler, ← fillEntries, ← List.foldl_append, foldl_setIdtEntry,
    hlast, foldl_update initDesc List.nodup_range, if_pos (List.mem_range.2 v.toNat_lt),
    initDesc_eq]
  cases vectorHandler v.toNat <;> rfl

/-- Every vector of `initialize_idt` leads to its handler in the kernel's code segment. Only that
of the system calls is open to processes, and those of the devices turn interrupts off. -/
theorem gates_eq (addr : Handler → UInt32) (v : UInt8) :
    gates addr v = some {
      offset := ((vectorHandler v.toNat).map addr).getD 0
      selector := 0x10
      dpl := if v = 0x80 then 3 else 0
      trap := v ∉ deviceVectors } := by
  rw [gates, initializeIdt_apply, decode_filledDesc]
  simp only [decide_eq_true_eq, decide_not]

/-- Any interrupt enters the handler of its vector in the kernel's code segment. Interrupts stay as
they were, but for the vectors of the devices, where they are turned off. -/
theorem interrupt_entry (sys : System) (addr : Handler → UInt32) (v : UInt8) (back : UInt32)
    (s : State) :
    ∃ g, gates addr v = some g ∧
      (sys.enter g back s).eip = ((vectorHandler v.toNat).map addr).getD 0 ∧
      (sys.enter g back s).cs = 0x10 ∧
      (bit (sys.enter g back s).eflags 9 ↔ bit s.eflags 9 ∧ v ∉ deviceVectors) := by
  refine ⟨_, gates_eq addr v, rfl, rfl, ?_⟩
  have hflags : ∀ trap : Bool, bit (s.eflags &&& if trap then 0xFFFCBEFF else 0xFFFCBCFF) 9 =
      (bit s.eflags 9 && trap) := by
    intro trap
    rw [bit, UInt32.toNat_and, Nat.testBit_and, ← bit]
    cases trap
    · rfl
    · rfl
  have hmask := hflags (decide (v ∉ deviceVectors))
  have hiff : (bit s.eflags 9 && decide (v ∉ deviceVectors)) = true ↔
      bit s.eflags 9 ∧ v ∉ deviceVectors := by
    rw [Bool.and_eq_true, decide_eq_true_eq]
  rw [← hiff, ← hmask]
  exact Iff.rfl

end MpOS
