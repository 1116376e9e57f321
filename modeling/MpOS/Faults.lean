import MpOS.DescriptorTable
import MpOS.Executables

/-!
# Loads that fault

`execute` saves its stack registers in the PCB once the program is loaded. A program that
runs past its page faults before that, and `halt_exception` jumps to the frame that the
last process in the PCB was started from. If a call with that frame is pending, the calls
inside it are gone, but the kernel's variables are those of the process that issued the
call : the code of one process goes on in the context of another (`not_allStates_alone`).

`Regular` leaves out such loads, the reads that store outside their caller's page, and
the words that overrun the buffers of `execute`. In the runs of regular events every
process has its context (`allStates_alone`) and its descriptor table (`tables_kept`) to
itself.
-/

namespace MpOS

open Transition

namespace Machine

variable {img : Image} {m m' : Machine}

/-! ## Regular events -/

/-- What a call of `execute` reads fits its buffers, and a program that it loads the page. -/
def ExecFits (img : Image) (m : Machine) : Event → Prop
  | .execute frame command =>
    Kernel.FitsFrame img command ∧ Kernel.FitsProgram img frame command m.kernel
  | _ => True

instance decidableExecFits (m : Machine) : ∀ e, Decidable (ExecFits img m e)
  | .execute frame command => inferInstanceAs
      (Decidable (Kernel.FitsFrame img command ∧ Kernel.FitsProgram img frame command m.kernel))
  | .halt _ | .haltException | .open _ | .close _ | .read _ _ _ | .write _ _ _ | .vidmap _
  | .contextSwitch _ | .interruptKeyboard _ | .interruptRtc | .switchVid _ => .isTrue trivial

/-- No store of the event goes astray. -/
def Regular (img : Image) (m : Machine) (e : Event) : Prop :=
  OwnReads img m e ∧ ExecFits img m e

instance (m : Machine) (e : Event) : Decidable (Regular img m e) :=
  inferInstanceAs (Decidable (_ ∧ _))

/-- A load that fits does not fault. -/
theorem faultStep_of_fits {e : Event} (h : ExecFits img m e) :
    m.faultStep img e = m.step img e := by
  cases e with
  | execute frame command =>
    have hexec : ∀ frame' k, m.kernel.execute img frame command ≠ some (.fault frame', k) := by
      intro frame' k heq
      by_cases hr : Kernel.Refused img frame command m.kernel
      · rw [Kernel.execute_of_refused h.1 hr] at heq
        exact absurd heq (by simp)
      · rcases Kernel.execute_of_not_refused h.1 hr with ⟨-, _, _, _, heq', -⟩ | ⟨hlong, -⟩
        · rw [heq'] at heq
          exact absurd heq (by simp)
        · exact hlong h.2
    rw [faultStep]
    split
    · rename_i heq
      exact absurd heq (hexec _ _)
    · rfl
  | _ => rfl

/-- The states of the runs of regular events from boot. -/
def RegularReachable (img : Image) : Machine → Prop :=
  Transition.Reachable (faultStep img) (Regular img) Booted

/-- A regular step goes on from there. -/
theorem RegularReachable.next (h : m.RegularReachable img) {e : Event} (hr : Regular img m e)
    (hstep : m.step img e = some m') : m'.RegularReachable img :=
  h.step hr ((faultStep_of_fits hr.2).trans hstep)

/-- Programs that fit their page are loaded without a fault. -/
theorem regular_execute {frame : Kernel.ExecFrame} {command : CString}
    (hx : Kernel.Executable img frame command) : Regular img m (.execute frame command) := by
  obtain ⟨hname, dent, hdent, hheader, -, hroom⟩ := hx
  have huniq : ∀ dent' ∈ img.readDentryByName (Kernel.commandName command), dent' = dent :=
    fun dent' h => Option.some.inj ((Option.mem_def.1 h).symm.trans hdent)
  refine ⟨trivial, ⟨hname, fun dent' h => ?_⟩, fun dent' h _ _ => ?_⟩
  · rwa [huniq dent' h]
  · rwa [huniq dent' h]

/-- A regular run is a run. -/
theorem RegularReachable.reachable (h : m.RegularReachable img) : m.Reachable img := by
  induction h with
  | init h => exact .init h
  | step _ hr hstep ih =>
    rw [faultStep_of_fits hr.2] at hstep
    exact ih.step hr.1 hstep

/-- A step that is regular takes no stale jump and keeps the machine coherent. -/
theorem coherent_faultStep (h : m.Coherent) {e : Event} (hr : Regular img m e)
    (hstep : m.faultStep img e = some m') : m'.Coherent := by
  rw [faultStep_of_fits hr.2] at hstep
  exact coherent_step h hstep

/-! ## The context of the running process -/

/-- The kernel stacks and program pages of the PCBs are distinct. -/
theorem context_inj {p q : Word} (hp : p < 8) (hq : q < 8) (hne : q ≠ p) :
    Kernel.getEsp0 q ≠ Kernel.getEsp0 p ∧
      (0x00800087 + 0x400000 * q : Word) ≠ 0x00800087 + 0x400000 * p := by
  have h : ∀ i < 8, ∀ j < 8, UInt32.ofNat j ≠ UInt32.ofNat i →
      Kernel.getEsp0 (UInt32.ofNat j) ≠ Kernel.getEsp0 (UInt32.ofNat i) ∧
        (0x00800087 + 0x400000 * UInt32.ofNat j : Word) ≠
          0x00800087 + 0x400000 * UInt32.ofNat i := by
    decide
  obtain ⟨i, hi, rfl⟩ := exists_ofNat hp
  obtain ⟨j, hj, rfl⟩ := exists_ofNat hq
  exact h i hi j hj hne

/-- None of the program pages is the one `halt` maps when no process is left. -/
theorem context_ne_noPid {p : Word} (hp : p < 8) :
    (0x00800087 + 0x400000 * p : Word) ≠ 0x00800087 + 0x400000 * noPid := by
  have h : ∀ i < 8, (0x00800087 + 0x400000 * UInt32.ofNat i : Word) ≠
      0x00800087 + 0x400000 * noPid := by
    decide
  obtain ⟨i, hi, rfl⟩ := exists_ofNat hp
  exact h i hi

/-- The context of process `p` is installed, and no part of that of another process, nor the page
of the kernel. -/
structure Alone (k : Kernel) (p : Word) : Prop extends Installed k p where
  curFdPtr_ne : ∀ q < 8, q ≠ p → k.cur.curFdPtr ≠ .fdTable q
  esp0_ne : ∀ q < 8, q ≠ p → k.proc.tssEsp0 ≠ Kernel.getEsp0 q
  program_ne : ∀ q < 8, q ≠ p → k.paging.pdt exec ≠ 0x00800087 + 0x400000 * q
  program_ne_kernel : k.paging.pdt exec ≠ 0x00800087 + 0x400000 * noPid

theorem Installed.alone {k : Kernel} {p : Word} (h : Installed k p) : Alone k p where
  toInstalled := h
  curFdPtr_ne q _ hne := by
    rw [h.curFdPtr]
    exact fun heq => hne (FdPtr.fdTable.inj heq).symm
  esp0_ne q hq hne := by
    rw [h.esp0]
    exact (context_inj h.lt hq hne).1.symm
  program_ne q hq hne := by
    rw [h.program]
    exact (context_inj h.lt hq hne).2.symm
  program_ne_kernel := by
    rw [h.program]
    exact context_ne_noPid h.lt

/-- The running process has its context to itself. -/
def RunsAlone (m : Machine) : Prop :=
  ∀ p, m.running = some p → Alone m.kernel p

/-- In every state of a run of regular events the user code that runs is that of the current
process, in the context of that process and no other. -/
theorem allStates_alone (h : m.Booted) {es : List Event}
    (hes : AllEvents (faultStep img) (Regular img) m es) :
    AllStates (faultStep img) RunsAlone m es :=
  (hes.allStates (fun _ _ _ hc hr hstep => coherent_faultStep hc hr hstep) (coherent_boot h)).mono
    fun _ hc _ hp => (hc.installed hp).alone

/-- Two shells on the first terminal and two on the second, and one of them ends. -/
theorem allStates_alone_first : AllStates (faultStep Kernel.shellImage) RunsAlone first
    [.execute ⟨0, 0, fun _ => 0⟩ Kernel.shellCommand,
      .execute ⟨1, 1, fun _ => 0⟩ Kernel.shellCommand, .contextSwitch ⟨0, 0, 0⟩,
      .execute ⟨2, 2, fun _ => 0⟩ Kernel.shellCommand,
      .execute ⟨3, 3, fun _ => 0⟩ Kernel.shellCommand, .contextSwitch ⟨3, 3, 0⟩,
      .contextSwitch ⟨0, 0, 0⟩, .halt 0, .read 0 0x8048000 4] :=
  allStates_alone first_booted (by decide +kernel)

end Machine

/-! ## A stray process -/

namespace Kernel

/-- An image with a program named `shell` and a program named `b` of the greatest length, whose
blocks are all the same. -/
def bigImage : Image where
  mem a :=
    if 8196 ≤ a ∧ a < 12288 then 0
    else (([(0, 2), (4, 2), (8, 1), (64, 115), (65, 104), (66, 101), (67, 108), (68, 108), (96, 2),
      (128, 98), (160, 2), (164, 1), (4096, 4), (8193, 0xF0), (8194, 0x3F), (12288, 0x7F),
      (12289, 0x45), (12290, 0x4C), (12291, 0x46)] : List (Word × Byte)).lookup a).getD 0

/-- The command `b`. -/
def bigCommand : CString :=
  ⟨[98], by decide⟩

theorem bigImage_typed : bigImage.Typed := by
  unfold Image.Typed
  decide

/-- All its block numbers are in range. -/
theorem dblock_big : ∀ J < 953,
    ¬bigImage.dblock 1 (UInt32.ofNat J) > bigImage.fsDblocks - 1 := by
  decide +kernel

theorem not_fitsProgram_big (frame : ExecFrame) {k : Kernel} (h : k.getAvailPcb ≠ none) :
    ¬FitsProgram bigImage frame bigCommand k := by
  intro hfits
  have hlen := hfits (bigImage.dentry 1) rfl (by rfl) h
  have hinode : (bigImage.dentry 1).inode = 1 := by decide
  rw [hinode, Image.length_program_le_iff (by decide) (by decide)] at hlen
  rcases hlen with hle | ⟨J, hle, -, hb⟩
  · exact absurd hle (by decide)
  · rw [programRoom] at hle
    exact dblock_big J (by omega) hb

end Kernel

namespace Machine

/-- The three boot loops start shells as processes 0, 1 and 2. The second shell starts process 3,
the first starts process 4, both end, and the first shell starts process 3 again. -/
def strays : List Event :=
  [.execute ⟨0, 0, fun _ => 0⟩ Kernel.shellCommand, .contextSwitch ⟨0, 0, 0⟩,
    .execute ⟨0, 0, fun _ => 0⟩ Kernel.shellCommand, .contextSwitch ⟨0, 0, 0⟩,
    .execute ⟨0, 0, fun _ => 0⟩ Kernel.shellCommand, .contextSwitch ⟨0, 0, 0⟩,
    .contextSwitch ⟨0, 0, 0⟩, .execute ⟨1, 1, fun _ => 0⟩ Kernel.shellCommand,
    .contextSwitch ⟨0, 0, 0⟩, .contextSwitch ⟨0, 0, 0⟩,
    .execute ⟨2, 2, fun _ => 0⟩ Kernel.shellCommand, .halt 0, .contextSwitch ⟨0, 0, 0⟩, .halt 0,
    .contextSwitch ⟨0, 0, 0⟩, .contextSwitch ⟨0, 0, 0⟩,
    .execute ⟨2, 2, fun _ => 0⟩ Kernel.shellCommand]

/-- Process 3 executes the program that does not fit. -/
def strayCall : Event :=
  .execute ⟨3, 3, fun _ => 0⟩ Kernel.bigCommand

/-- PCB 4 still has the frame that process 3 was started from. -/
theorem run_strays : ∃ m, run (faultStep Kernel.bigImage) first strays = some m ∧
    m.stack = [⟨⟨2, 2⟩, 3⟩, ⟨⟨0, 0⟩, 0⟩] ∧ m.kernel.getAvailPcb = some 4 ∧
    m.kernel.cur.curPid = 3 ∧ m.kernel.cur.curFdPtr = .fdTable 3 ∧
    (m.kernel.proc.pcb 3).use = 1 ∧ (m.kernel.table 3 2).flags = 0 ∧
    (m.kernel.proc.pcb 4).parentEsp = 2 ∧ (m.kernel.proc.pcb 4).parentEbp = 2 := by
  have h : (run (faultStep Kernel.bigImage) first strays).map (fun m =>
      decide (m.stack = [⟨⟨2, 2⟩, 3⟩, ⟨⟨0, 0⟩, 0⟩] ∧ m.kernel.getAvailPcb = some 4 ∧
        m.kernel.cur.curPid = 3 ∧ m.kernel.cur.curFdPtr = .fdTable 3 ∧
        (m.kernel.proc.pcb 3).use = 1 ∧ (m.kernel.table 3 2).flags = 0 ∧
        (m.kernel.proc.pcb 4).parentEsp = 2 ∧ (m.kernel.proc.pcb 4).parentEbp = 2)) =
      some true := by
    decide +kernel
  obtain ⟨m, hm, hd⟩ := Option.map_eq_some_iff.1 h
  exact ⟨m, hm, of_decide_eq_true hd⟩

/-- The load faults, the call of process 3 is gone, and the first shell goes on in the context of
process 3. -/
theorem exists_stray : ∃ m, run (faultStep Kernel.bigImage) first (strays ++ [strayCall]) = some m ∧
    m.running = some 0 ∧ m.kernel.cur.curPid = 3 ∧ m.kernel.cur.curFdPtr = .fdTable 3 ∧
    (m.kernel.proc.pcb 3).use = 1 ∧ (m.kernel.table 3 2).flags = 0 := by
  obtain ⟨m, hrun, hstack, havail, hpid, hptr, huse, hflag, hesp, hebp⟩ := run_strays
  have hf : Kernel.FitsFrame Kernel.bigImage Kernel.bigCommand := by decide
  have hr : ¬Kernel.Refused Kernel.bigImage ⟨3, 3, fun _ => 0⟩ Kernel.bigCommand m.kernel := by
    intro hr
    have hnone := hr (Kernel.bigImage.dentry 1) rfl (by rfl)
    rw [havail] at hnone
    exact absurd hnone (by simp)
  rcases Kernel.execute_of_not_refused hf hr with ⟨hfits, -⟩ | ⟨-, pid, k₁, hs, hexec⟩
  · exact absurd hfits (Kernel.not_fitsProgram_big _ (by simp [havail]))
  obtain rfl := Option.some.inj (havail.symm.trans hs.avail)
  obtain ⟨k, hhalt, hx⟩ := hs.exists_haltException
  have hframe : (⟨(m.kernel.staleFrame 4 fun _ => 0).esp, (m.kernel.staleFrame 4 fun _ => 0).ebp⟩ :
      Kernel.Frame) = ⟨2, 2⟩ := by
    rw [Kernel.staleFrame, hesp, hebp]
  rw [hframe] at hhalt hx
  have hcur : k₁.cur = { m.kernel.cur with curPid := 4, curFdPtr := .fdTable 4 } := hs.cur_eq
  have hself : k.cur = { k₁.cur with
      curPid := m.kernel.cur.curPid, curFdPtr := m.kernel.cur.curFdPtr } := by
    rw [hx.cur_eq, hcur, hs.pcb_self]
    rfl
  have hpcb : k₁.proc.pcb 3 = m.kernel.proc.pcb 3 := hs.pcb_of_ne (by decide)
  have hstep : m.faultStep Kernel.bigImage strayCall =
      some ⟨k, Function.update m.calls m.terminal [⟨⟨0, 0⟩, 0⟩]⟩ := by
    rw [hhalt] at hexec
    simp only [strayCall, faultStep, hexec, Option.map_some]
    rw [if_neg (by decide), resume, hstack, List.dropWhile_cons_of_neg (by simp)]
  have hsched : terminal ⟨k, Function.update m.calls m.terminal [⟨⟨0, 0⟩, 0⟩]⟩ = m.terminal :=
    hx.scheduleIndex.trans hs.scheduleIndex
  refine ⟨⟨k, Function.update m.calls m.terminal [⟨⟨0, 0⟩, 0⟩]⟩, ?_, ?_, ?_, ?_, ?_, ?_⟩
  · rw [run_append, hrun, Option.bind_some, run_cons, hstep]
    rfl
  · rw [running, stack, hsched]
    simp only [Function.update_self]
    rfl
  · rw [hself, hpid]
  · rw [hself, hptr]
  · have hlink := hx.link_of_ne (show (3 : Word) ≠ k₁.cur.curPid by simp [hcur])
    rw [hpcb] at hlink
    exact (congrArg PcbLink.use hlink).trans huse
  · have htable : k.table 3 = k₁.table 3 :=
      table_eq_of_fds (hx.fds _ (by rw [hcur]; simp))
    rw [htable, Kernel.table, hpcb]
    exact hflag

/-- The first shell runs with the pid of process 3. -/
theorem not_allStates_alone : ¬∀ (img : Image) (m : Machine) (es : List Event), m.Booted →
    (∀ e ∈ es, e.isRead = false) → AllStates (faultStep img) RunsAlone m es := by
  intro h
  obtain ⟨m, hrun, hr, hpid, -⟩ := exists_stray
  have hlast := (h Kernel.bigImage first (strays ++ [strayCall]) first_booted (by decide)).last hrun
  have heq := (hlast 0 hr).curPid
  rw [hpid] at heq
  exact absurd heq (by decide)

/-! ## The descriptor tables -/

/-- The tables of the live processes, and what `open` and `close` make of them. -/
structure TablesKept (img : Image) (s : Machine × (Word → Opens)) : Prop where
  std : ∀ p < 8, (s.1.kernel.proc.pcb p).use = 1 → ∀ i < 2,
    (s.1.kernel.table p i).flags = 1 ∧ (s.1.kernel.table p i).tablePointer = some .keyboard
  opened : ∀ p < 8, (s.1.kernel.proc.pcb p).use = 1 → ∀ i, 2 ≤ i → i ≤ 7 →
    ((s.1.kernel.table p i).flags = 1 ↔ (s.1.kernel.table p i).tablePointer ≠ none) ∧
    ((s.1.kernel.table p i).flags ≠ 0 ↔ s.2 p i ≠ none) ∧
    ∀ type, s.2 p i = some type →
      (s.1.kernel.table p i).tablePointer = Kernel.typeOps type ∧ Kernel.typeOps type ≠ none
  opens : ∀ p, s.1.running = some p → ∀ filename : CString,
    ∃ ret, ∃ k' : Kernel, s.1.kernel.sysOpen img filename.mem = some (ret, k') ∧
      (ret = -1 ↔
        (∀ i < img.fsEntries.toNat, (img.dentry (UInt32.ofNat i)).nameChars ≠ filename.chars) ∨
        ∀ i, 2 ≤ i → i ≤ 7 → (s.1.kernel.table p i).flags ≠ 0) ∧
      (ret ≠ -1 → ∃ fd : ℕ, ret = fd ∧ 2 ≤ fd ∧ fd ≤ 7 ∧ (s.1.kernel.table p fd).flags = 0 ∧
        ∀ i, 2 ≤ i → i < fd → (s.1.kernel.table p i).flags ≠ 0)
  closes : ∀ p, s.1.running = some p → ∀ fd : ℤ,
    (fd < 2 ∨ 7 < fd ∨ (s.1.kernel.table p fd.toNat).flags = 0 →
      s.1.kernel.sysClose fd = some (-1, s.1.kernel)) ∧
    (2 ≤ fd → fd ≤ 7 → (s.1.kernel.table p fd.toNat).flags ≠ 0 →
      ∃ k', s.1.kernel.sysClose fd = some (0, k'))

/-- The event changes the table of no live process but the one that runs. -/
def KeepsTables (img : Image) (m : Machine) (e : Event) : Prop :=
  ∀ m', m.faultStep img e = some m' → ∀ q < 8, (m.kernel.proc.pcb q).use = 1 →
    m.running ≠ some q → m'.kernel.table q = m.kernel.table q

/-- Lawful tables keep what the calls promise. -/
theorem Lawful.tablesKept (hi : img.Typed) {s : Machine × (Word → Opens)} (h : Lawful s) :
    TablesKept img s := by
  have hc := h.coherent
  have hlaw : ∀ p < 8, (s.1.kernel.proc.pcb p).use = 1 → TableLaw (s.1.kernel.table p) (s.2 p) :=
    fun p hp huse => h.law p ((hc.use_eq_one_iff hp).1 huse)
  have hown : ∀ p, s.1.running = some p →
      s.1.kernel.cur.curFdPtr = .fdTable p ∧ TableLaw (s.1.kernel.table p) (s.2 p) := fun p hp =>
    ⟨(hc.installed hp).curFdPtr, h.law p (hc.running_mem hp)⟩
  refine ⟨fun p hp huse i hlt => ?_, fun p hp huse i h2 h7 => ?_, fun p hp filename => ?_,
    fun p hp fd => ?_⟩
  · have hstd := (hlaw p hp huse).std i hlt
    exact ⟨hstd.flags, hstd.tablePointer⟩
  · have ht := hlaw p hp huse
    refine ⟨ht.flags_eq_one_iff h2 h7, ht.flags_ne_zero_iff h2 h7, fun type ho => ?_⟩
    obtain ⟨ops, hops, he⟩ := ht.opened i h2 h7 type ho
    rw [he.tablePointer, hops]
    exact ⟨rfl, by simp⟩
  · obtain ⟨hptr, ht⟩ := hown p hp
    obtain ⟨ret, k', hopen, -, hfail, -, hok⟩ := Kernel.sysOpen_spec hptr ht hi filename.mem
    refine ⟨ret, k', hopen, ?_, fun hret => ?_⟩
    · rw [hfail, Image.readDentryByName_eq_none_iff]
      refine or_congr_right (forall₃_congr fun i h2 h7 => (ht.flags_ne_zero_iff h2 h7).symm)
    · obtain ⟨fd, hfd, h2, h7, hnone, hleast⟩ := hok hret
      refine ⟨fd, hfd, h2, h7, (ht.closed fd h2 h7 hnone).flags, fun i hi2 hlt => ?_⟩
      exact (ht.flags_ne_zero_iff hi2 (by omega)).2 (hleast i hi2 hlt)
  · obtain ⟨hptr, ht⟩ := hown p hp
    refine ⟨fun hfail => Kernel.sysClose_fail hptr hfail, fun h2 h7 hf => ?_⟩
    obtain ⟨ops, hops⟩ := ht.exists_ops (by omega) (by omega) hf
    exact ⟨_, Kernel.sysClose_of_open hptr h2 h7 hf hops⟩

/-- In every state of a run of regular events the live processes have the keyboard in entries 0
and 1 of their tables, and in the rest exactly the descriptors they opened and have not closed,
each through the table of its file's type. `open` takes the least free descriptor and fails
exactly without file or free entry, `close` fails without effect on everything else, and no
event changes the table of another process than the running one. -/
theorem tables_kept (hi : img.Typed) (h : m.Booted) (opens : Word → Opens) {es : List Event}
    (hes : AllEvents (faultStep img) (Regular img) m es) :
    AllStates (track (faultStep img) (recordOpens img)) (TablesKept img) (m, opens) es ∧
      AllEvents (faultStep img) (KeepsTables img) m es := by
  constructor
  · have hinv : ∀ (s : Machine × (Word → Opens)) (e : Event) (s' : Machine × (Word → Opens)),
        Lawful s → Regular img s.1 e → track (faultStep img) (recordOpens img) s e = some s' →
        Lawful s' := by
      rintro ⟨m, opens⟩ e ⟨m', opens'⟩ hl hr hstep
      obtain ⟨hstep, hg⟩ := track_eq_some_iff.1 hstep
      change opens' = recordOpens img m e opens at hg
      change m.faultStep img e = some m' at hstep
      rw [faultStep_of_fits hr.2] at hstep
      rw [hg]
      exact lawful_step hl hstep
    exact ((allEvents_track.2 hes).allStates hinv (lawful_boot h opens)).mono
      fun _ hl => hl.tablesKept hi
  · refine hes.imp (fun _ _ _ hc hr hstep => coherent_faultStep hc hr hstep)
      (fun m e hc hr m' hstep q hq huse hne => ?_) (coherent_boot h)
    rw [faultStep_of_fits hr.2] at hstep
    exact step_table hc hstep ((hc.use_eq_one_iff hq).1 huse) hne

/-- A shell opens a file, and so does its child, which ends with the file open. -/
theorem tables_kept_first :
    AllStates (track (faultStep Kernel.shellImage) (recordOpens Kernel.shellImage))
      (TablesKept Kernel.shellImage) (first, fun _ _ => none)
      [.execute ⟨0, 0, fun _ => 0⟩ Kernel.shellCommand, .open Kernel.shellCommand,
        .execute ⟨1, 1, fun _ => 0⟩ Kernel.shellCommand, .open Kernel.shellCommand,
        .read 2 0x8048000 4, .halt 0, .close 2, .close 2] ∧
    AllEvents (faultStep Kernel.shellImage) (KeepsTables Kernel.shellImage) first
      [.execute ⟨0, 0, fun _ => 0⟩ Kernel.shellCommand, .open Kernel.shellCommand,
        .execute ⟨1, 1, fun _ => 0⟩ Kernel.shellCommand, .open Kernel.shellCommand,
        .read 2 0x8048000 4, .halt 0, .close 2, .close 2] :=
  tables_kept shellImage_typed first_booted _ (by decide +kernel)

/-- The first shell opens a file and gets a descriptor in the table of process 3. -/
theorem not_keepsTables : ¬∀ (img : Image) (m : Machine) (es : List Event), img.Typed → m.Booted →
    (∀ e ∈ es, e.isRead = false) → AllEvents (faultStep img) (KeepsTables img) m es := by
  intro h
  obtain ⟨m, hrun, hr, -, hptr, huse, hflag⟩ := exists_stray
  have hall := h Kernel.bigImage first ((strays ++ [strayCall]) ++ [.open Kernel.shellCommand])
    Kernel.bigImage_typed first_booted (by decide)
  have hkeeps : KeepsTables Kernel.bigImage m (.open Kernel.shellCommand) :=
    ((allEvents_append hrun).1 hall).2.1
  cases havail : m.kernel.getAvailFd with
  | none =>
    rw [Kernel.getAvailFd_eq_none_iff hptr] at havail
    exact havail 2 (by decide) (by decide) hflag
  | some fd =>
    obtain ⟨-, -, hfree, -⟩ := Kernel.getAvailFd_eq_some hptr havail
    have hd : Kernel.bigImage.readDentryByName Kernel.shellCommand.mem =
        some (Kernel.bigImage.dentry 0) := by
      rfl
    have ht : Kernel.typeOps (Kernel.bigImage.dentry 0).type = some .fileop := by
      rfl
    obtain ⟨k, hopen, -, htable⟩ := Kernel.sysOpen_of_avail hptr havail hd ht
    have hstep : m.faultStep Kernel.bigImage (.open Kernel.shellCommand) =
        some (m.withKernel k) := by
      show m.userCall _ = _
      rw [userCall, if_neg (by simp [hr]), hopen]
      rfl
    have hsame := congrFun (hkeeps _ hstep 3 (by decide) huse (by simp [hr])) fd
    rw [withKernel, htable, Function.update_self] at hsame
    rw [← hsame] at hfree
    exact absurd hfree (by decide)

end Machine

end MpOS
