import MpOS.Executables
import MpOS.Interference

/-!
# What `getargs` delivers

The name of the program and the arguments are parsed from one string by two loops. Both
split a command of a word, spaces and arguments behind the word (`firstWord_append`,
`argsOf_append`), so a process is delivered the arguments behind the name it was started
under (`splits_delivers`). The copy to the caller stores `nbytes` bytes however long the
arguments are. Arguments that are too long are cut off, and the call returns 0 all the
same (`deliversWhole_iff`).
-/

namespace MpOS

open Transition ZeroBuffer

/-! ## A call without interruptions -/

/-- `getargs` : its return value and the bytes it stores from `buf` on. -/
def getargs (buf : Word) (nbytes : ℤ) (userBuf arg : ℕ → Byte) : Option (ℤ × List Byte) :=
  (parsePhase buf nbytes userBuf (clearArgs arg)).bind fun r =>
    match r.2 with
    | none => some (-1, [])
    | some arg => copyPhase nbytes arg

variable {userBuf : ℕ → Byte} {nbytes : ℤ}

theorem getargs_eq (h : (strlen Kernel.usrBufSize userBuf).isSome) (buf : Word) (nbytes : ℤ)
    (arg : ℕ → Byte) : getargs buf nbytes userBuf arg =
      some (if buf = 0 ∨ nbytes = 0 then (-1, []) else argsResult nbytes (bufArgs userBuf)) := by
  obtain ⟨len, hlen⟩ := Option.isSome_iff_exists.1 h
  rw [getargs, parsePhase_eq hlen, Option.bind_some]
  split_ifs
  · rfl
  · rw [← bufArgs_eq hlen]
    exact copyPhase_of_holds (holds_fill (fun i hi => if_pos hi) _) nbytes

theorem isSome_getargs_iff (buf : Word) (nbytes : ℤ) (userBuf arg : ℕ → Byte) :
    (getargs buf nbytes userBuf arg).isSome ↔ (strlen Kernel.usrBufSize userBuf).isSome := by
  refine ⟨fun h => ?_, fun h => by rw [getargs_eq h]; rfl⟩
  rw [← @isSome_parsePhase_iff userBuf (clearArgs arg) buf nbytes]
  rw [getargs] at h
  exact Option.isSome_of_isSome_bind h

/-! ## Arguments that do not fit -/

/-- Where the arguments fit with their terminator, the rest of the `nbytes` bytes is zero. -/
theorem argsResult_of_lt {args : List Byte} (hne : args ≠ []) (h : args.length < nbytes)
    (hn : nbytes < 2 ^ 31) : argsResult nbytes args =
      (0, args ++ List.replicate (nbytes.toNat - args.length) 0) := by
  have hword : (toWord nbytes).toNat = nbytes.toNat := by
    obtain ⟨n, rfl⟩ := Int.eq_ofNat_of_zero_le (by omega : 0 ≤ nbytes)
    rw [Int.toNat_natCast, toWord_natCast (by omega), UInt32.toNat_ofNat_of_lt' (by
      rw [UInt32.size]
      omega)]
  have hpad : (List.range nbytes.toNat).map (fun i => args.getD i 0) =
      args ++ List.replicate (nbytes.toNat - args.length) 0 := by
    refine List.ext_getElem (by simp; omega) fun i h₁ h₂ => ?_
    rcases Nat.lt_or_ge i args.length with hlt | hge
    · simp [List.getElem_append_left hlt, hlt]
    · simp [List.getElem_append_right hge, hge]
  rw [argsResult, if_neg hne, hword, hpad]

/-- A result is success and the whole string of arguments, or failure, and stays within the
`nbytes` bytes. -/
structure DeliversWhole (nbytes : ℤ) (args : List Byte) (r : ℤ × List Byte) : Prop where
  ret : r.1 = 0 ∨ r.1 = -1
  fits : r.1 = 0 → args.length + 1 ≤ nbytes
  string : r.1 = 0 → args ++ [0] <+: r.2
  stored : (r.2.length : ℤ) ≤ max nbytes 0

theorem deliversWhole_fail (nbytes : ℤ) (args : List Byte) :
    DeliversWhole nbytes args (-1, []) :=
  ⟨Or.inr rfl, fun h => absurd h (by decide), fun h => absurd h (by decide), le_max_right _ _⟩

/-- `getargs` meets that exactly if `user_buf` is terminated, and the caller asks for nothing,
there are no arguments, or they are shorter than `nbytes`. -/
theorem deliversWhole_iff (hn : nbytes < 2 ^ 31) (buf : Word) (userBuf arg : ℕ → Byte) :
    (∃ r, getargs buf nbytes userBuf arg = some r ∧ DeliversWhole nbytes (bufArgs userBuf) r) ↔
      (strlen Kernel.usrBufSize userBuf).isSome ∧
        (buf = 0 ∨ nbytes = 0 ∨ bufArgs userBuf = [] ∨ (bufArgs userBuf).length < nbytes) := by
  by_cases hterm : (strlen Kernel.usrBufSize userBuf).isSome
  swap
  · refine iff_of_false (fun ⟨r, hr, _⟩ => hterm ?_) fun h => hterm h.1
    rw [← isSome_getargs_iff buf nbytes userBuf arg, hr]
    rfl
  rw [and_iff_right hterm, getargs_eq hterm, ← or_assoc]
  simp only [Option.some.injEq, exists_eq_left']
  by_cases hbuf : buf = 0 ∨ nbytes = 0
  · rw [if_pos hbuf]
    exact iff_of_true (deliversWhole_fail _ _) (Or.inl hbuf)
  rw [if_neg hbuf, or_iff_right hbuf]
  by_cases hnil : bufArgs userBuf = []
  · rw [argsResult, if_pos hnil]
    exact iff_of_true (deliversWhole_fail _ _) (Or.inl hnil)
  rw [or_iff_right hnil]
  constructor
  · intro h
    have hfits := h.fits (by rw [argsResult, if_neg hnil])
    omega
  · intro hlt
    obtain ⟨m, hm⟩ : ∃ m, nbytes.toNat - (bufArgs userBuf).length = m + 1 :=
      Nat.exists_eq_add_one.2 (by omega)
    rw [argsResult_of_lt hnil hlt hn, hm, List.replicate_succ, ← List.singleton_append,
      ← List.append_assoc]
    refine ⟨Or.inl rfl, fun _ => by omega, fun _ => List.prefix_append _ _, ?_⟩
    simp only [List.length_append, List.length_replicate, List.length_singleton]
    omega

/-- The command `shell ab`. -/
def shellWithTwo : CString :=
  ⟨[115, 104, 101, 108, 108, 32, 97, 98], by decide⟩

theorem deliversWhole_shellWithTwo :
    ∃ r, getargs 0x8000000 3 shellWithTwo.mem (fun _ => 0) = some r ∧
      DeliversWhole 3 (bufArgs shellWithTwo.mem) r :=
  (deliversWhole_iff (by decide) 0x8000000 shellWithTwo.mem fun _ => 0).2
    ⟨by decide +kernel, by decide +kernel⟩

/-- Its two letters fill two bytes. -/
theorem not_deliversWhole :
    ¬∀ (buf : Word) (nbytes : ℤ) (userBuf arg : ℕ → Byte), nbytes < 2 ^ 31 →
      (strlen Kernel.usrBufSize userBuf).isSome →
      ∃ r, getargs buf nbytes userBuf arg = some r ∧
        DeliversWhole nbytes (bufArgs userBuf) r := by
  intro h
  obtain ⟨r, hr, hd⟩ := h 0x8000000 2 shellWithTwo.mem (fun _ => 0) (by decide)
    (by decide +kernel)
  have heq : getargs 0x8000000 2 shellWithTwo.mem (fun _ => 0) = some (0, [97, 98]) := by
    decide +kernel
  obtain rfl := Option.some.inj (heq.symm.trans hr)
  have hfits := hd.fits rfl
  revert hfits
  decide +kernel

/-! ## Commands of a word and arguments -/

/-- A command is a word, spaces and arguments, and fits the buffers. -/
structure Splits (command word : CString) (args : List Byte) : Prop where
  chars : ∃ k, command.chars = word.chars ++ List.replicate k 32 ++ args ∧ (k = 0 → args = [])
  plain : ∀ c ∈ word.chars, c ≠ 32 ∧ c ≠ 10
  length : word.chars.length < fnameSize
  args : args.head? ≠ some 32
  fits : command.strlen < Kernel.usrBufSize

/-- The loop of `execute` stops behind the word. -/
theorem firstWord_append {w args : List Byte} {k : ℕ} (hw : ∀ c ∈ w, c ≠ 32 ∧ c ≠ 10)
    (hk : k = 0 → args = []) : firstWord (w ++ List.replicate k 32 ++ args) = w := by
  induction w with
  | nil =>
    cases k with
    | zero =>
      rw [hk rfl]
      rfl
    | succ k => exact (firstWord_cons _ _).trans (if_pos (Or.inl rfl))
  | cons c w ih =>
    obtain ⟨hc, hw⟩ := List.forall_mem_cons.1 hw
    simp only [List.cons_append, firstWord_cons]
    rw [if_neg (not_or.2 hc), ih hw]

/-- The loop of `getargs` passes the spaces, the last by its look-ahead. -/
theorem argsOf_spaces {args : List Byte} (h : args.head? ≠ some 32) (k : ℕ) :
    argsOf (List.replicate (k + 1) 32 ++ args) = args := by
  induction k with
  | zero => exact if_pos ⟨rfl, h⟩
  | succ k ih =>
    rw [List.replicate_succ, List.cons_append, argsOf, if_neg, ih]
    exact fun hstop => hstop.2 (by rw [List.replicate_succ]; rfl)

theorem argsOf_append {w args : List Byte} {k : ℕ} (hw : ∀ c ∈ w, c ≠ 32)
    (h : args.head? ≠ some 32) (hk : k = 0 → args = []) :
    argsOf (w ++ List.replicate k 32 ++ args) = args := by
  induction w with
  | nil =>
    cases k with
    | zero =>
      rw [hk rfl]
      rfl
    | succ k => exact argsOf_spaces h k
  | cons c w ih =>
    obtain ⟨hc, hw⟩ := List.forall_mem_cons.1 hw
    simp only [List.cons_append, argsOf]
    rw [if_neg fun hstop => hc hstop.1, ih hw]

namespace Splits

variable {command word : CString} {args : List Byte}

theorem firstWord_eq (h : Splits command word args) : firstWord command.chars = word.chars := by
  obtain ⟨k, hchars, hk⟩ := h.chars
  rw [hchars, firstWord_append h.plain hk]

theorem argsOf_eq (h : Splits command word args) : argsOf command.chars = args := by
  obtain ⟨k, hchars, hk⟩ := h.chars
  rw [hchars, argsOf_append (fun c hc => (h.plain c hc).1) h.args hk]

/-- `fname` holds the word. -/
theorem named (h : Splits command word args) :
    NameKept command ∧ Kernel.commandName command = word.mem := by
  refine ⟨(nameKept_iff command).2 ?_, ?_⟩
  · rw [h.firstWord_eq]
    exact Nat.le_of_lt_succ h.length
  · rw [commandName_eq, h.firstWord_eq]
    rfl

end Splits

/-! ## The processes that a command starts -/

/-- The parse only stores a NUL over the one at the end of `user_buf`. -/
theorem parsePhase_fst {buf : Word} {arg : ℕ → Byte} {r : (ℕ → Byte) × Option (ℕ → Byte)}
    (h : parsePhase buf nbytes userBuf arg = some r) : r.1 = userBuf := by
  have hterm : (strlen Kernel.usrBufSize userBuf).isSome := by
    rw [← @isSome_parsePhase_iff userBuf arg buf nbytes, h]
    rfl
  obtain ⟨len, hlen⟩ := Option.isSome_iff_exists.1 hterm
  rw [parsePhase_eq hlen] at h
  obtain rfl := Option.some.inj h
  rfl

namespace ArgMachine

variable {img : Image} {command : CString} {p : Word} {s s' : ArgMachine}

/-- The phases of a call leave the machine as it is. -/
theorem machine_advance {r : Option (ℤ × List Byte) × ArgMachine} (h : s.advance = some r) :
    r.2.machine = s.machine := by
  unfold advance at h
  split at h
  · simp at h
  · obtain ⟨r, hr, rfl⟩ := Option.map_eq_some_iff.1 h
    rw [parsePhase_fst hr, setUserBuf_self]
    split
    · exact setPhase_machine _
    · exact setPhase_machine _
  · obtain ⟨r, -, rfl⟩ := Option.map_eq_some_iff.1 h
    exact setPhase_machine _

theorem machine_step {e : ArgEvent} (h : s.step img e = some s') :
    (∃ e', e = .sys e' ∧ s.machine.step img e' = some s'.machine) ∨ s'.machine = s.machine := by
  cases e with
  | sys e =>
    obtain ⟨m, hm, rfl⟩ := sys_eq_some h
    rw [(s.setMachine_eq e m).1]
    exact Or.inl ⟨e, rfl, hm⟩
  | getargs buf nbytes =>
    simp only [step] at h
    split_ifs at h
    obtain rfl := Option.some.inj h
    exact Or.inr (setPhase_machine _)
  | advance =>
    obtain ⟨r, hr, rfl⟩ := Option.map_eq_some_iff.1 h
    exact Or.inr (machine_advance hr)

theorem coherent_step {e : ArgEvent} (h : s.machine.Coherent) (hstep : s.step img e = some s') :
    s'.machine.Coherent := by
  rcases machine_step hstep with ⟨e', -, hm⟩ | hm
  · exact Machine.coherent_step h hm
  · rw [hm]
    exact h

/-- In a run whose reads store in their callers' own pages a command has started a process that
still lives. -/
inductive StartedBy (img : Image) (command : CString) (p : Word) : ArgMachine → Prop
  | start {s s' : ArgMachine} {frame : Kernel.ExecFrame} {target : Word} {k : Kernel} :
      Transition.Reachable (step img) (OwnReads img) Booted s →
      s.machine.kernel.execute img frame command = some (.iret p target, k) →
      s.step img (.sys (.execute frame command)) = some s' → StartedBy img command p s'
  | step {s s' : ArgMachine} {e : ArgEvent} : StartedBy img command p s → s.OwnReads img e →
      s.step img e = some s' → p ∈ s'.machine.live → StartedBy img command p s'

/-- The process lives, and its `user_buf` is the copy of the command. -/
structure Keeps (command : CString) (p : Word) (s : ArgMachine) : Prop where
  coherent : s.machine.Coherent
  live : p ∈ s.machine.live
  userBuf : ∃ dest, (s.machine.kernel.proc.pcb p).userBuf =
    Kernel.strncpy dest command Kernel.usrBufSize

theorem Keeps.step {e : ArgEvent} (h : s.Keeps command p) (hstep : s.step img e = some s')
    (hp : p ∈ s'.machine.live) : s'.Keeps command p := by
  refine ⟨coherent_step h.coherent hstep, hp, ?_⟩
  rcases machine_step hstep with ⟨e', -, hm⟩ | hm
  · rcases Machine.userBuf_step hm p with hsame | ⟨frame, c, target, k, -, -, hs, -⟩
    · rw [hsame]
      exact h.userBuf
    · -- the PCB of a live process is not taken
      obtain ⟨t, ht⟩ := Machine.mem_live.1 h.live
      exact absurd ht
        (h.coherent.not_mem_of_use_eq_zero (Kernel.getAvailPcb_eq_some hs.avail).2 t)
  · rw [hm]
    exact h.userBuf

theorem StartedBy.keeps (h : StartedBy img command p s) : s.Keeps command p := by
  induction h with
  | @start s s' frame target k hreach hexec hstep =>
    have hcoh : s.machine.Coherent := hreach.invariant
      (fun _ hboot => Machine.coherent_boot hboot.1) fun _ _ _ h _ hstep => coherent_step h hstep
    suffices h : p ∈ s'.machine.live ∧ ∃ dest, (s'.machine.kernel.proc.pcb p).userBuf =
        Kernel.strncpy dest command Kernel.usrBufSize from
      ⟨coherent_step hcoh hstep, h.1, h.2⟩
    obtain ⟨m, hm, rfl⟩ := sys_eq_some hstep
    rw [(s.setMachine_eq _ m).1]
    rcases Machine.execute_eq_some hm with ⟨k', b, hfail, -⟩ | ⟨pid, target', k', hexec', hs, rfl⟩
    · exact absurd (hexec.symm.trans hfail) (by simp)
    · have heq := Option.some.inj (hexec.symm.trans hexec')
      obtain ⟨hres, rfl⟩ := Prod.mk.inj heq
      obtain ⟨rfl, -⟩ := Kernel.ExecResult.iret.inj hres
      refine ⟨Machine.mem_live.2 ⟨s.machine.terminal, ?_⟩,
        (s.machine.kernel.proc.pcb p).userBuf, ?_⟩
      · exact Machine.mem_pids_enter.2 (Or.inl ⟨rfl, rfl⟩)
      · exact congrArg Pcb.userBuf hs.pcb_self
  | step _ _ hstep hp ih => exact ih.step hstep hp

namespace Keeps

variable {word : CString} {args : List Byte}

theorem isSome_strlen (h : s.Keeps command p) (hc : command.strlen < Kernel.usrBufSize) :
    (strlen Kernel.usrBufSize (s.machine.kernel.proc.pcb p).userBuf).isSome := by
  obtain ⟨dest, hbuf⟩ := h.userBuf
  rw [hbuf]
  exact (Kernel.isSome_strlen_strncpy_iff dest command).2 (Nat.le_of_lt_succ hc)

/-- Its arguments are those of the command. -/
theorem ownArgs (h : s.Keeps command p) (hc : Splits command word args) :
    s.ownArgs p = args := by
  obtain ⟨dest, hbuf⟩ := h.userBuf
  rw [ArgMachine.ownArgs, hbuf, bufArgs_strncpy dest (Nat.le_of_lt_succ hc.fits), hc.argsOf_eq]

end Keeps

/-! ## Calls in a row -/

/-- The three phases of a call. -/
def call (buf : Word) (nbytes : ℤ) : List ArgEvent :=
  [.getargs buf nbytes, .advance, .advance]

theorem running_setPhase (h : s.machine.running = some p) (next : Pending) :
    (s.setPhase next).machine.running = some p := by
  rw [setPhase_machine, h]

theorem phase_setPhase (h : s.machine.running = some p) (next : Pending) :
    (s.setPhase next).phase = next := by
  rw [phase_eq (running_setPhase h next), setPhase_pending h, Function.update_self]

/-- The state a phase leaves. -/
theorem setArgs_setPhase (h : s.machine.running = some p) (arg : ℕ → Byte) (next : Pending) :
    ((s.setArgs arg).setPhase next).machine = s.machine ∧
      ((s.setArgs arg).setPhase next).machine.running = some p ∧
      ((s.setArgs arg).setPhase next).phase = next ∧
      ((s.setArgs arg).setPhase next).argRetrieved = arg := by
  have hrun : (s.setArgs arg).machine.running = some p := h
  exact ⟨setPhase_machine _, running_setPhase hrun _, phase_setPhase hrun _,
    setPhase_argRetrieved _⟩

theorem step_getargs (hrun : s.machine.running = some p) (hidle : s.pending p = .idle)
    (buf : Word) (nbytes : ℤ) : s.step img (.getargs buf nbytes) =
      some ((s.setArgs (clearArgs s.argRetrieved)).setPhase (.cleared buf nbytes)) := by
  simp only [step]
  rw [if_neg]
  rintro (h | h)
  · exact Option.some_ne_none p (hrun.symm.trans h)
  · exact h ((phase_eq hrun).trans hidle)

theorem outputs_advance (hrun : s.machine.running = some p) (es : List ArgEvent) :
    outputs (step img) (delivered p) s (.advance :: es) = (s.advance.bind Prod.fst).toList ++
      s.advance.elim [] fun r => outputs (step img) (delivered p) r.2 es := by
  simp only [outputs, delivered, if_pos hrun, step]
  cases s.advance with
  | none => rfl
  | some r => rfl

/-- The last phase. -/
theorem outputs_parsed (hrun : s.machine.running = some p) {nbytes : ℤ}
    (hphase : s.phase = .parsed nbytes) : outputs (step img) (delivered p) s [.advance] =
      (copyPhase nbytes s.argRetrieved).toList := by
  rw [outputs_advance hrun]
  simp only [advance, hphase]
  cases copyPhase nbytes s.argRetrieved with
  | none => rfl
  | some r => rfl

/-- The last two. -/
theorem outputs_cleared (hrun : s.machine.running = some p) {buf : Word} {nbytes : ℤ}
    (hphase : s.phase = .cleared buf nbytes) :
    outputs (step img) (delivered p) s [.advance, .advance] =
      ((parsePhase buf nbytes s.userBuf s.argRetrieved).bind fun r =>
        match r.2 with
        | none => some (-1, [])
        | some arg => copyPhase nbytes arg).toList := by
  rw [outputs_advance hrun]
  simp only [advance, hphase]
  cases hparse : parsePhase buf nbytes s.userBuf s.argRetrieved with
  | none => rfl
  | some r =>
    obtain ⟨userBuf, next⟩ := r
    obtain rfl : userBuf = s.userBuf := parsePhase_fst hparse
    simp only [Option.map_some, Option.elim_some, Option.bind_some, setUserBuf_self]
    cases next with
    | none =>
      rw [outputs_advance (running_setPhase hrun _)]
      simp only [advance, phase_setPhase hrun]
      rfl
    | some arg =>
      obtain ⟨-, hrun', hphase', hargs⟩ := setArgs_setPhase hrun arg (.parsed nbytes)
      rw [outputs_parsed hrun' hphase', hargs]
      rfl

/-- The phases without interruptions deliver what the call returns. -/
theorem outputs_call (hcoh : s.machine.Coherent) (hrun : s.machine.running = some p)
    (hidle : s.pending p = .idle) (buf : Word) (nbytes : ℤ) :
    outputs (step img) (delivered p) s (call buf nbytes) =
      (getargs buf nbytes (s.machine.kernel.proc.pcb p).userBuf s.argRetrieved).toList := by
  obtain ⟨hmachine, hrun', hphase, hargs⟩ :=
    setArgs_setPhase hrun (clearArgs s.argRetrieved) (.cleared buf nbytes)
  have hcleared := @outputs_cleared img p _ hrun' buf nbytes hphase
  rw [userBuf, hmachine, (hcoh.installed hrun).curPid, hargs] at hcleared
  rw [getargs, ← hcleared, call, outputs, step_getargs hrun hidle]
  rfl

theorem step_parse {buf : Word} {nbytes : ℤ} (hphase : s.phase = .cleared buf nbytes)
    {userBuf arg : ℕ → Byte}
    (h : parsePhase buf nbytes s.userBuf s.argRetrieved = some (userBuf, some arg)) :
    s.step img .advance = some ((s.setArgs arg).setPhase (.parsed nbytes)) := by
  obtain rfl : userBuf = s.userBuf := parsePhase_fst h
  simp only [step, advance, hphase, h, Option.map_some, setUserBuf_self]

theorem step_copy {nbytes : ℤ} (hphase : s.phase = .parsed nbytes) {r : ℤ × List Byte}
    (h : copyPhase nbytes s.argRetrieved = some r) :
    s.step img .advance = some (s.setPhase .idle) := by
  simp only [step, advance, hphase, h, Option.map_some]

/-- A call that asks for something ends where the next one can start. -/
theorem run_call (hcoh : s.machine.Coherent) (hrun : s.machine.running = some p)
    (hidle : s.pending p = .idle)
    (hterm : (strlen Kernel.usrBufSize (s.machine.kernel.proc.pcb p).userBuf).isSome)
    {buf : Word} {nbytes : ℤ} (hne : ¬(buf = 0 ∨ nbytes = 0)) :
    ∃ s', run (step img) s (call buf nbytes) = some s' ∧ s'.machine = s.machine ∧
      s'.pending p = .idle := by
  obtain ⟨len, hlen⟩ := Option.isSome_iff_exists.1 hterm
  have hparse := @parsePhase_eq _ (clearArgs s.argRetrieved) len hlen buf nbytes
  have hcall := (isSome_getargs_iff buf nbytes _ s.argRetrieved).2 hterm
  rw [if_neg hne] at hparse
  rw [getargs, hparse, Option.bind_some] at hcall
  generalize fill (clearArgs s.argRetrieved) _ = arg at hparse hcall
  obtain ⟨r, hcopy⟩ : ∃ r, copyPhase nbytes arg = some r := Option.isSome_iff_exists.1 hcall
  obtain ⟨hmachine₁, hrun₁, hphase₁, hargs₁⟩ :=
    setArgs_setPhase hrun (clearArgs s.argRetrieved) (.cleared buf nbytes)
  have hstep₁ := @step_getargs img p s hrun hidle buf nbytes
  generalize (s.setArgs _).setPhase _ = s₁ at hmachine₁ hrun₁ hphase₁ hargs₁ hstep₁
  obtain ⟨hmachine₂, hrun₂, hphase₂, hargs₂⟩ := setArgs_setPhase hrun₁ arg (.parsed nbytes)
  have hstep₂ : s₁.step img .advance = some ((s₁.setArgs arg).setPhase (.parsed nbytes)) := by
    rw [← hargs₁, ← (hcoh.installed hrun).curPid, ← hmachine₁] at hparse
    exact step_parse hphase₁ hparse
  generalize (s₁.setArgs arg).setPhase _ = s₂ at hmachine₂ hrun₂ hphase₂ hargs₂ hstep₂
  have hstep₃ : s₂.step img .advance = some (s₂.setPhase .idle) := by
    refine step_copy hphase₂ (r := r) ?_
    rw [hargs₂, hcopy]
  refine ⟨s₂.setPhase .idle, ?_, ?_, ?_⟩
  · rw [call, run_cons, hstep₁, Option.bind_some, run_cons, hstep₂, Option.bind_some, run_cons,
      hstep₃]
    rfl
  · rw [setPhase_machine, hmachine₂, hmachine₁]
  · rw [setPhase_pending hrun₂, Function.update_self]

/-! ## Calls among other events -/

/-- The process lives on, no other process clears or parses, and a read stores in its caller's own
page. -/
def Alone (img : Image) (p : Word) (s : ArgMachine) (e : ArgEvent) : Prop :=
  ((∃ e', e = .sys e' ∧ s.machine.OwnReads img e') ∨ s.machine.running = some p) ∧
    ∀ s', s.step img e = some s' → p ∈ s'.machine.live

theorem Alone.running {e : ArgEvent} (h : Alone img p s e) (he : ∀ e', e ≠ .sys e') :
    s.machine.running = some p := by
  rcases h.1 with ⟨e', rfl, -⟩ | hrun
  · exact absurd rfl (he e')
  · exact hrun

/-- `arg_retrieved` is cleared or holds the arguments, as far as the call is. -/
def Holding (p : Word) (args : List Byte) (s : ArgMachine) : Prop :=
  match s.pending p with
  | .idle => True
  | .cleared _ _ => ∀ i < Kernel.usrBufSize, s.argRetrieved i = 0
  | .parsed _ => Holds s.argRetrieved Kernel.usrBufSize args

theorem holding_of_idle (h : s.pending p = .idle) (args : List Byte) : s.Holding p args := by
  rw [Holding, h]
  trivial

theorem holding_step {word : CString} {args : List Byte} (hk : s.Keeps command p)
    (hc : Splits command word args) (h : s.Holding p args) {e : ArgEvent} (he : Alone img p s e)
    (hstep : s.step img e = some s') : s'.Holding p args := by
  cases e with
  | sys e =>
    obtain ⟨m, -, rfl⟩ := sys_eq_some hstep
    rcases setMachine_pending (p := p) (s := s) e m with hp | hp
    · rw [Holding, hp, (s.setMachine_eq e m).2]
      exact h
    · exact holding_of_idle hp args
  | getargs buf nbytes =>
    have hrun := he.running fun _ h => ArgEvent.noConfusion h
    simp only [step] at hstep
    split_ifs at hstep
    obtain rfl := Option.some.inj hstep
    obtain ⟨-, hrun', hphase, hargs⟩ :=
      setArgs_setPhase hrun (clearArgs s.argRetrieved) (.cleared buf nbytes)
    rw [phase_eq hrun'] at hphase
    rw [Holding, hphase, hargs]
    exact fun i hi => if_pos hi
  | advance =>
    have hrun := he.running fun _ h => ArgEvent.noConfusion h
    obtain ⟨r, hr, rfl⟩ := Option.map_eq_some_iff.1 hstep
    have hidle : (s.setPhase .idle).Holding p args :=
      holding_of_idle (by rw [setPhase_pending hrun, Function.update_self]) args
    cases hp : s.pending p with
    | idle => simp [advance, phase_eq hrun, hp] at hr
    | cleared buf nbytes =>
      rw [Holding, hp] at h
      obtain ⟨len, hlen⟩ := Option.isSome_iff_exists.1 (hk.isSome_strlen hc.fits)
      have hbuf := userBuf_eq hk.coherent hrun
      rw [← hbuf] at hlen
      obtain rfl := Option.some.inj
        ((advance_of_cleared ((phase_eq hrun).trans hp) hlen).symm.trans hr)
      split_ifs
      · exact hidle
      · obtain ⟨-, hrun', hphase, hargs⟩ := setArgs_setPhase hrun
          (fill s.argRetrieved (argsOf (string s.userBuf len))) (.parsed nbytes)
        rw [phase_eq hrun'] at hphase
        rw [Holding, hphase, hargs, ← bufArgs_eq hlen, hbuf, ← hk.ownArgs hc]
        exact holds_fill h _
    | parsed nbytes =>
      simp only [advance, phase_eq hrun, hp] at hr
      obtain ⟨_, -, rfl⟩ := Option.map_eq_some_iff.1 hr
      exact hidle

/-! ## What a started process is delivered -/

/-- The arguments padded with zeros, or failure where there are none. -/
def wholeResult (nbytes : ℤ) (args : List Byte) : ℤ × List Byte :=
  if args = [] then (-1, []) else (0, args ++ List.replicate (nbytes.toNat - args.length) 0)

theorem argsResult_eq_wholeResult {args : List Byte} {nbytes : ℤ} (h : args.length < nbytes)
    (hn : nbytes < 2 ^ 31) : argsResult nbytes args = wholeResult nbytes args := by
  unfold wholeResult
  split_ifs with hnil
  · exact if_pos hnil
  · exact argsResult_of_lt hnil h hn

/-- The end of a call that asks for enough bytes delivers the arguments. -/
def Returns (p : Word) (args : List Byte) (s : ArgMachine) : ArgEvent → Prop
  | .advance => s.machine.running = some p → ∀ n : ℤ, s.pending p = .parsed n →
    args.length < n → n < 2 ^ 31 → s.delivered p .advance = [wholeResult n args]
  | _ => True

namespace Keeps

variable {word : CString} {args : List Byte}

/-- A call that is not interrupted. -/
theorem outputs_call (h : s.Keeps command p) (hc : Splits command word args)
    (hrun : s.machine.running = some p) (hidle : s.pending p = .idle) {buf : Word} {nbytes : ℤ}
    (hbuf : buf ≠ 0) (hlt : args.length < nbytes) (hn : nbytes < 2 ^ 31) :
    outputs (ArgMachine.step img) (delivered p) s (call buf nbytes) =
      [wholeResult nbytes args] := by
  have hne : ¬(buf = 0 ∨ nbytes = 0) := by
    rintro (h0 | h0)
    · exact hbuf h0
    · omega
  have hargs := h.ownArgs hc
  rw [ArgMachine.ownArgs] at hargs
  rw [ArgMachine.outputs_call h.coherent hrun hidle, getargs_eq (h.isSome_strlen hc.fits),
    if_neg hne, hargs, argsResult_eq_wholeResult hlt hn, Option.toList_some]

/-- The end of a call among other events. -/
theorem returns (h : s.Keeps command p) (hc : Splits command word args) (hh : s.Holding p args)
    (e : ArgEvent) : Returns p args s e := by
  cases e with
  | sys e => trivial
  | getargs buf nbytes => trivial
  | advance =>
    intro hrun n hp hlt hn
    rw [Holding, hp] at hh
    rw [← h.ownArgs hc] at hh
    have hcopy := copyPhase_of_holds hh n
    have hargs : bufArgs (s.machine.kernel.proc.pcb p).userBuf = args := h.ownArgs hc
    rw [hargs, argsResult_eq_wholeResult hlt hn] at hcopy
    simp only [delivered, if_pos hrun, advance, phase_eq hrun, hp, hcopy]
    rfl

end Keeps

/-- `execute` looks up the word, and a process it starts is delivered the arguments : by every
call that is not interrupted, however often it calls, and by every call in whose course no other
process clears or parses. -/
theorem splits_delivers {word : CString} {args : List Byte} (h : Splits command word args) :
    (NameKept command ∧ Kernel.commandName command = word.mem) ∧
      ∀ (img : Image) (p : Word) (s : ArgMachine), StartedBy img command p s →
        s.pending p = .idle →
        (s.machine.running = some p → ∀ calls : List (Word × ℤ),
          (∀ c ∈ calls, c.1 ≠ 0 ∧ args.length < c.2 ∧ c.2 < 2 ^ 31) →
          outputs (step img) (delivered p) s (calls.flatMap fun c => call c.1 c.2) =
            calls.map fun c => wholeResult c.2 args) ∧
        ∀ es, AllEvents (step img) (Alone img p) s es →
          AllEvents (step img) (Returns p args) s es := by
  refine ⟨h.named, fun img p s hs hidle => ⟨fun hrun calls hcalls => ?_, fun es hes => ?_⟩⟩
  · have hk := hs.keeps
    clear hs
    -- the induction is on the calls, each of which leaves the machine as it is
    induction calls generalizing s with
    | nil => rfl
    | cons c calls ih =>
      obtain ⟨⟨hbuf, hlt, hn⟩, hcalls⟩ := List.forall_mem_cons.1 hcalls
      have hne : ¬(c.1 = 0 ∨ c.2 = 0) := by
        rintro (h0 | h0)
        · exact hbuf h0
        · omega
      obtain ⟨s', hrun', hmachine, hidle'⟩ :=
        @run_call img p s hk.coherent hrun hidle (hk.isSome_strlen h.fits) c.1 c.2 hne
      have hk' : s'.Keeps command p := by
        obtain ⟨hcoh, hlive, hbuf⟩ := hk
        rw [← hmachine] at hcoh hlive hbuf
        exact ⟨hcoh, hlive, hbuf⟩
      rw [List.flatMap_cons, List.map_cons, outputs_append, hrun', Option.elim_some,
        hk.outputs_call h hrun hidle hbuf hlt hn,
        ih s' hidle' (by rw [hmachine, hrun]) hcalls hk', List.singleton_append]
  · have hkeep : ∀ t e t', t.Keeps command p ∧ t.Holding p args → Alone img p t e →
        t.step img e = some t' → t'.Keeps command p ∧ t'.Holding p args :=
      fun _ _ _ hi he hstep => ⟨hi.1.step hstep (he.2 _ hstep), holding_step hi.1 h hi.2 he hstep⟩
    exact hes.imp hkeep (fun _ e hi _ => hi.1.returns h hi.2 e)
      ⟨hs.keeps, holding_of_idle hidle args⟩

/-- The command `shell a` is a word, a space and an argument. -/
theorem splits_shellWith : Splits (shellWith 97 (by decide)) Kernel.shellCommand [97] :=
  ⟨⟨1, rfl, fun h => absurd h (by decide)⟩, by simp [Kernel.shellCommand],
    (by decide : 5 < 128), by decide, (by decide : 7 < 1024)⟩

/-- The first shell starts process 1 with it. -/
theorem exists_startedBy : ∃ s : ArgMachine,
    StartedBy Kernel.shellImage (shellWith 97 (by decide)) 1 s ∧ s.machine.running = some 1 ∧
      s.pending 1 = .idle := by
  obtain ⟨k, hs, hm⟩ := Machine.start_first_shell ⟨0, 0, fun _ => 0⟩
  set m := Machine.first.enter ⟨⟨0, 0⟩, 0⟩ k
  have hx : Kernel.Executable Kernel.shellImage ⟨0, 0, fun _ => 0⟩ (shellWith 97 (by decide)) :=
    ⟨by decide, Kernel.shellImage.dentry 0, by rfl, by decide, by rfl, by decide⟩
  have hreach :
      Transition.Reachable (step Kernel.shellImage) (OwnReads Kernel.shellImage) Booted _ :=
    .step (.init first_booted) (by trivial) (step_sys (rfl : first.phase = .idle) hm)
  set s₁ := first.setMachine (.execute ⟨0, 0, fun _ => 0⟩ Kernel.shellCommand) m
  have havail : s₁.machine.kernel.getAvailPcb = some 1 := Machine.getAvailPcb_first_shell hs
  rcases Kernel.execute_of_executable hx s₁.machine.kernel with
    ⟨-, hnone⟩ | ⟨pid, target, k', hexec, hs'⟩
  · exact absurd (havail.symm.trans hnone) (by simp)
  · obtain rfl := Option.some.inj (havail.symm.trans hs'.avail)
    obtain ⟨k'', hs'', hm'⟩ := Machine.step_execute hx s₁.machine havail
    have hidle : s₁.phase = .idle := by
      rw [phase_eq (Machine.running_enter _ _ hs.scheduleIndex)]
      rfl
    exact ⟨_, .start hreach hexec (step_sys hidle hm'),
      Machine.running_enter _ _ hs''.scheduleIndex, rfl⟩

/-- It calls twice. -/
theorem splits_delivers_shellWith : ∃ s : ArgMachine,
    StartedBy Kernel.shellImage (shellWith 97 (by decide)) 1 s ∧
      outputs (step Kernel.shellImage) (delivered 1) s
        (call 0x8000000 3 ++ call 0x8000000 2) = [(0, [97, 0, 0]), (0, [97, 0])] := by
  obtain ⟨s, hs, hrun, hidle⟩ := exists_startedBy
  exact ⟨s, hs, ((splits_delivers splits_shellWith).2 _ 1 s hs hidle).1 hrun
    [(0x8000000, 3), (0x8000000, 2)] (by simp)⟩

end ArgMachine

end MpOS
