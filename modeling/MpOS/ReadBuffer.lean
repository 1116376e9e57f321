import MpOS.Directory
import MpOS.TerminalInput
import MpOS.VideoMap

/-!
# The buffer of a reader

Of the drivers only `file_read` looks at the size of the caller's buffer. `keyboard_read`
stores the pending line and a NUL, whatever that takes, and `directory_read` always
33 bytes. A read stays in its buffer exactly where those fit
(`inBuffer_keyboard_iff`, `inBuffer_directory_iff`).
-/

namespace MpOS

namespace Machine

open ZeroBuffer

variable {img : Image} {m : Machine} {opens : Word → Opens} {p : Word} {fd : ℤ} {buf : Word}
  {nbytes : ℤ}

/-- Every run has the history of its lines. -/
theorem Reachable.exists_input (h : m.Reachable img) : ∃ l, Input (m, l) := by
  have hboot : ∀ m : Machine, m.Booted → ∃ l, Input (m, l) := fun _ hb => ⟨_, input_boot hb⟩
  exact Transition.Reachable.invariant hboot exists_input_step h

/-- The loop of `keyboard_read` waits for its terminal to be visible or for the terminal's
flag. -/
def Waits (m : Machine) : Prop :=
  m.kernel.screen.visibleScreen ≠ m.terminal ∨ m.kernel.keyboard.flagKeyboard m.terminal = 0

/-- A call of `read` waits for a line, or it returns, and stores and returns no more than fits in
the buffer of its caller. -/
def InBuffer (m : Machine) (img : Image) (fd : ℤ) (buf : Word) (nbytes : ℤ) : Prop :=
  fd = 0 ∧ m.Waits ∨ ∃ r : Kernel.ReadResult, m.kernel.sysRead img fd buf nbytes = some r ∧
    (r.stored.length : ℤ) ≤ nbytes ∧ r.ret ≤ nbytes

/-- A read of the keyboard that does not wait returns the line if it ends in its buffer. -/
theorem exists_sysRead_keyboard (h : Lawful (m, opens)) {l : Terminal → List Byte}
    (hl : m.kernel.Lines l) (hp : m.running = some p) (hbuf : buf ≠ 0) (hw : ¬m.Waits)
    (hlen : (l m.terminal).length < bufferSize) :
    ∃ r : Kernel.ReadResult, m.kernel.sysRead img 0 buf nbytes = some r ∧
      r.ret = (l m.terminal).length ∧ r.stored.length = (l m.terminal).length + 1 := by
  obtain ⟨hf, hread⟩ := Kernel.sysRead_zero (h.own hp).1 (h.own hp).2 img hbuf nbytes
  obtain ⟨hvis, hflag⟩ := not_or.1 hw
  rw [not_not] at hvis
  have hidx : (m.kernel.proc.pcb m.kernel.cur.curPid).screenIdx =
      m.kernel.screen.visibleScreen.word := by
    rw [(h.coherent.installed hp).curPid, h.coherent.screenIdx hp, hvis]
  have hsome : (strlen bufferSize (m.kernel.lineBuffer m.kernel.screen.visibleScreen)).isSome := by
    rw [hvis]
    exact ((hl.holds _).isSome_strlen_iff (hl.nul _)).2 hlen
  obtain ⟨r, hr⟩ := Option.isSome_iff_exists.1
    (@Kernel.isSome_keyboardRead m.kernel 0 hidx (hvis ▸ hflag) hsome)
  obtain ⟨hret, hstored, -⟩ := hl.keyboardRead hf hr
  refine ⟨r.storeAt buf, by rw [hread, hr]; rfl, hvis ▸ hret, ?_⟩
  rw [Kernel.ReadResult.storeAt, hstored, List.length_append, List.length_singleton, hvis]

/-- A keyboard descriptor. -/
theorem inBuffer_keyboard_iff (h : Lawful (m, opens)) {l : Terminal → List Byte}
    (hl : m.kernel.Lines l) (hp : m.running = some p) (h0 : 0 ≤ fd) (h7 : fd ≤ 7) (hbuf : buf ≠ 0)
    (hn : 0 ≤ nbytes) (hops : (m.kernel.curFd fd.toNat).tablePointer = some .keyboard) :
    m.InBuffer img fd buf nbytes ↔ fd = 1 ∨ m.Waits ∨
      m.kernel.counter m.terminal < 128 ∧ (m.kernel.counter m.terminal : ℤ) < nbytes := by
  obtain ⟨hptr, hlaw⟩ := h.own hp
  rw [Kernel.curFd_eq hptr] at hops
  have hfd : fd = 0 ∨ fd = 1 := by
    by_contra hne
    exact hlaw.ne_keyboard (by omega) (by omega) hops
  rcases hfd with rfl | rfl
  · rw [or_iff_right (by decide), InBuffer, and_iff_right rfl, hl.counter]
    refine or_congr_right' fun hw => ⟨?_, ?_⟩
    · rintro ⟨r, hr, hstored, -⟩
      obtain ⟨hf, hread⟩ := Kernel.sysRead_zero hptr hlaw img hbuf nbytes
      obtain ⟨r', hr', -⟩ := Option.map_eq_some_iff.1 (hread.symm.trans hr)
      obtain ⟨-, -, n, hlen, -⟩ := Kernel.keyboardRead_eq hf hr'
      obtain ⟨⟨-, hline⟩, -⟩ := read_line h hl hp hbuf hr
      rw [hline, List.length_append, List.length_singleton] at hstored
      have hvis := not_not.1 (not_or.1 hw).1
      rw [hvis, (hl.holds _).strlen_eq_some_iff (hl.nul _)] at hlen
      exact ⟨hlen.1, by omega⟩
    · rintro ⟨hlen, hfit⟩
      obtain ⟨r, hr, hret, hstored⟩ :=
        @exists_sysRead_keyboard img m opens p buf nbytes h l hl hp hbuf hw hlen
      exact ⟨r, hr, by omega, by omega⟩
  · refine iff_of_true (Or.inr ⟨⟨-1, [], m.kernel⟩, ?_, hn, by simp only; omega⟩) (Or.inl rfl)
    rw [Kernel.sysRead, if_neg (by decide), if_neg hbuf, if_pos rfl, ite_self]

/-- A directory descriptor. -/
theorem inBuffer_directory_iff (h : Lawful (m, opens)) (hp : m.running = some p) (h0 : 0 ≤ fd)
    (h7 : fd ≤ 7) (hbuf : buf ≠ 0) (hn : 0 ≤ nbytes)
    (hops : (m.kernel.curFd fd.toNat).tablePointer = some .directory) :
    m.InBuffer img fd buf nbytes ↔ 33 ≤ nbytes ∨
      img.fsEntries ≠ 0 ∧ img.fsEntries ≤ (m.kernel.curFd fd.toNat).filePosition := by
  obtain ⟨hptr, hlaw⟩ := h.own hp
  have h2 : 2 ≤ fd := by
    by_contra hlt
    rw [Kernel.curFd_eq hptr, (hlaw.std fd.toNat (by omega)).tablePointer] at hops
    exact absurd hops (by decide)
  have hopen : (m.kernel.curFd fd.toNat).flags = 1 := by
    rw [Kernel.curFd_eq hptr] at hops ⊢
    exact (hlaw.flags_eq_one_iff (by omega) (by omega)).2 (by simp [hops])
  have hread : m.kernel.sysRead img fd buf nbytes =
      some ((m.kernel.directoryRead img fd.toNat).storeAt buf) := by
    rw [Kernel.sysRead, if_neg (by unfold Kernel.maxFd; omega), if_neg hbuf, hopen,
      if_neg (by decide), if_neg (by omega), hops]
    rfl
  have hfd : ¬(fd.toNat < 2 ∨ fd.toNat > 7) := by omega
  rw [InBuffer, or_iff_right fun hw => absurd hw.1 (by omega), ← gt_sub_one_iff, hread]
  by_cases hend : (m.kernel.curFd fd.toNat).filePosition > img.fsEntries - 1
  · refine iff_of_true ⟨_, rfl, ?_⟩ (Or.inr hend)
    simp only [Kernel.ReadResult.storeAt, Kernel.directoryRead, if_neg hfd,
      Image.readDentryByIndex, if_pos hend]
    exact ⟨hn, hn⟩
  · have hle := Image.length_nameChars_le (img.dentry (m.kernel.curFd fd.toNat).filePosition)
    have hlen := Dentry.length_nameField (img.dentry (m.kernel.curFd fd.toNat).filePosition)
    have hdir : ∃ k, m.kernel.directoryRead img fd.toNat =
        ⟨(img.dentry (m.kernel.curFd fd.toNat).filePosition).nameChars.length,
          (img.dentry (m.kernel.curFd fd.toNat).filePosition).nameField, k⟩ := by
      refine ⟨(m.kernel.directoryRead img fd.toNat).kernel, ?_⟩
      simp only [Kernel.directoryRead, if_neg hfd, Image.readDentryByIndex, if_neg hend]
      rfl
    obtain ⟨k, hdir⟩ := hdir
    rw [or_iff_left hend, hdir]
    constructor
    · rintro ⟨r, hr, hstored, -⟩
      obtain rfl := Option.some.inj hr
      simp only [Kernel.ReadResult.storeAt, hlen] at hstored
      omega
    · intro hfit
      refine ⟨_, rfl, ?_, ?_⟩
      · simp only [Kernel.ReadResult.storeAt, hlen]
        omega
      · simp only [Kernel.ReadResult.storeAt]
        omega

/-- In every reachable state a read of the keyboard stays in its buffer exactly where it fails on
descriptor 1, waits, or finds a terminated line shorter than the buffer, and a read of a
directory exactly where the buffer has 33 bytes or the directory is at its end. -/
theorem inBuffer_iff (hm : m.Reachable img) (hp : m.running = some p) (h0 : 0 ≤ fd) (h7 : fd ≤ 7)
    (hbuf : buf ≠ 0) (hn : 0 ≤ nbytes) :
    ((m.kernel.curFd fd.toNat).tablePointer = some .keyboard →
      (m.InBuffer img fd buf nbytes ↔ fd = 1 ∨ m.Waits ∨
        m.kernel.counter m.terminal < 128 ∧ (m.kernel.counter m.terminal : ℤ) < nbytes)) ∧
    ((m.kernel.curFd fd.toNat).tablePointer = some .directory →
      (m.InBuffer img fd buf nbytes ↔ 33 ≤ nbytes ∨
        img.fsEntries ≠ 0 ∧ img.fsEntries ≤ (m.kernel.curFd fd.toNat).filePosition)) := by
  obtain ⟨l, ⟨opens, hlaw⟩, hl⟩ := hm.exists_input
  exact ⟨inBuffer_keyboard_iff hlaw hl hp h0 h7 hbuf hn,
    inBuffer_directory_iff hlaw hp h0 h7 hbuf hn⟩

/-- The first process with a directory open. -/
theorem exists_listing : ∃ m : Machine, m.Reachable Kernel.directoryImage ∧ m.running = some 0 ∧
    m.kernel.Listing 0 2 0 := by
  obtain ⟨m, hm, hrun, hptr, havail⟩ :=
    exists_first (Kernel.directory_executable ⟨0, 0, fun _ => 0⟩)
  obtain ⟨k, hopen, hl⟩ := Kernel.listing_sysOpen hptr Kernel.lookup_directory (by decide) havail
  have hstep : m.step Kernel.directoryImage (.open (CString.mk [46] (by decide))) =
      some (m.withKernel k) := by
    rw [step, userCall, if_neg (by simp [hrun]), hopen]
    rfl
  have hctx := (Kernel.onlyFds_sysOpen hopen).context
  exact ⟨_, hm.step (by trivial) hstep, (running_withKernel hctx.scheduleIndex).trans hrun, hl⟩

theorem inBuffer_listing : ∃ m : Machine, m.Reachable Kernel.directoryImage ∧
    m.InBuffer Kernel.directoryImage 2 0x8048000 33 := by
  obtain ⟨m, hm, hrun, hl⟩ := exists_listing
  have hops : (m.kernel.curFd (2 : ℤ).toNat).tablePointer = some .directory := by
    rw [Kernel.curFd_eq hl.curFdPtr]
    exact congrArg Fd.tablePointer hl.entry
  exact ⟨m, hm, ((inBuffer_iff hm hrun (by decide) (by decide) (by decide) (by decide)).2 hops).2
    (Or.inl (by decide))⟩

/-- A read of a directory into a buffer of 31 bytes stores 33. -/
theorem not_inBuffer_listing : ∃ m : Machine, m.Reachable Kernel.directoryImage ∧
    m.running = some 0 ∧ (m.kernel.curFd 2).tablePointer = some .directory ∧
    ∃ r, m.kernel.sysRead Kernel.directoryImage 2 0x8048000 31 = some r ∧ r.stored.length = 33 := by
  obtain ⟨m, hm, hrun, hl⟩ := exists_listing
  have hops : (m.kernel.curFd 2).tablePointer = some .directory := by
    rw [Kernel.curFd_eq hl.curFdPtr]
    exact congrArg Fd.tablePointer hl.entry
  obtain ⟨r, hr, -, hstored, -⟩ := hl.directoryRead_of_lt
    (by decide : 0 < Kernel.directoryImage.fsEntries.toNat)
  refine ⟨m, hm, hrun, hops, r.storeAt 0x8048000, ?_, ?_⟩
  · rw [← hr]
    exact hl.sysRead_eq Kernel.directoryImage (by decide) 31
  · rw [Kernel.ReadResult.storeAt, hstored, Dentry.length_nameField]

end Machine

end MpOS
