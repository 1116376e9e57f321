import MpOS.LineBuffer

/-!
# Terminal input

The line buffers along whole runs. Besides key events only a read of descriptor 0 gets at
them : no other descriptor of a process is ever a keyboard, so the routines that clear
all three buffers on `open` and `close` are never called (`step_sameLines`). A history
variable holds the characters typed on each terminal that no read has returned. The
buffers agree with it in every state (`Input`).

The two faults of the handler are conditions on single key events. Nothing stops a
character from being stored behind 127 others (`FitsOk`). The flag a key event raises
is that of the visible terminal, even if another line is the full one, and backspace
takes the newline of a line away without lowering the flag (`ReadyOk`).
-/

namespace MpOS

open ZeroBuffer

/-- No descriptor that `open` returns is a keyboard. -/
theorem TableLaw.ne_keyboard {t : ℕ → Fd} {opens : Opens} (h : TableLaw t opens) {i : ℕ}
    (h2 : 2 ≤ i) (h7 : i ≤ 7) : (t i).tablePointer ≠ some .keyboard := by
  cases ho : opens i with
  | none =>
    rw [(h.closed i h2 h7 ho).tablePointer]
    simp
  | some type =>
    obtain ⟨ops, hops, he⟩ := h.opened i h2 h7 type ho
    rw [he.tablePointer, ← hops]
    unfold Kernel.typeOps
    split_ifs <;> simp

namespace Kernel

variable {k : Kernel} {p : Word} {opens : Opens}

/-! ## The calls that leave the keyboard alone -/

theorem keyboard_setCurFd (k : Kernel) (fd : ℕ) (e : Fd) :
    (k.setCurFd fd e).keyboard = k.keyboard := by
  unfold setCurFd setFd
  split <;> rfl

/-- Only the keyboard's own open resets a line buffer. -/
theorem keyboard_opsOpen {ops : Fileops} (hops : ops ≠ .keyboard) (fd : ℕ) (inode : Word) :
    (k.opsOpen ops fd inode).2.keyboard = k.keyboard := by
  cases ops with
  | fileop =>
    simp only [opsOpen, fileOpen]
    split_ifs
    · rfl
    · exact keyboard_setCurFd _ _ _
  | directory =>
    simp only [opsOpen, directoryOpen]
    split_ifs
    · rfl
    · exact keyboard_setCurFd _ _ _
  | rtc => exact keyboard_setCurFd _ _ _
  | keyboard => exact absurd rfl hops

/-- Nor does a close of another device touch one. -/
theorem keyboard_opsClose {ops : Fileops} (hops : ops ≠ .keyboard) (fd : ℕ) :
    (k.opsClose ops fd).2.keyboard = k.keyboard := by
  have hclose : ∀ inode, (k.closeFd inode fd).2.keyboard = k.keyboard := by
    intro inode
    unfold closeFd
    split_ifs
    · rfl
    · exact keyboard_setCurFd _ _ _
  cases ops with
  | fileop => exact hclose _
  | directory => exact hclose _
  | rtc => exact hclose _
  | keyboard => exact absurd rfl hops

theorem keyboard_opsRead {img : Image} {ops : Fileops} (hops : ops ≠ .keyboard) {fd : ℕ}
    {nbytes : ℤ} {r : ReadResult} (h : k.opsRead img ops fd nbytes = some r) :
    r.kernel.keyboard = k.keyboard := by
  cases ops with
  | fileop =>
    obtain rfl := Option.some.inj h
    simp only [fileRead]
    split_ifs
    · rfl
    · exact keyboard_setCurFd _ _ _
  | directory =>
    obtain rfl := Option.some.inj h
    simp only [directoryRead]
    split_ifs
    · rfl
    · split
      · rfl
      · exact keyboard_setCurFd _ _ _
  | rtc =>
    obtain rfl := Option.some.inj h
    rfl
  | keyboard => exact absurd rfl hops

theorem keyboard_sysWrite {fd : ℤ} {buf : Option (ℕ → Byte)} {nbytes : ℤ} {r : ℤ × Kernel}
    (h : k.sysWrite fd buf nbytes = some r) : r.2.keyboard = k.keyboard := by
  rcases sysWrite_cases h with rfl | ⟨ops, buf, rfl⟩
  · rfl
  cases ops with
  | fileop => rfl
  | directory => rfl
  | rtc =>
    simp only [opsWrite, rtcWrite]
    split_ifs <;> rfl
  | keyboard => exact (onlyScreen_keyboardWrite buf nbytes k).keyboard

/-- `open` never reaches the keyboard's : the types of the entries lead elsewhere. -/
theorem keyboard_sysOpen (hc : k.cur.curFdPtr = .fdTable p) (hl : TableLaw (k.table p) opens)
    {img : Image} {filename : ℕ → Byte} {r : ℤ × Kernel} (h : k.sysOpen img filename = some r) :
    r.2.keyboard = k.keyboard := by
  unfold sysOpen at h
  split at h
  · obtain rfl := Option.some.inj h
    rfl
  rename_i fd hfd
  split at h
  · obtain rfl := Option.some.inj h
    rfl
  rename_i dent hdent
  obtain ⟨ops, hops, rfl⟩ := Option.map_eq_some_iff.1 h
  obtain ⟨h2, h7, -⟩ := getAvailFd_eq_some hc hfd
  have hptr : (k.setFileopPtr fd dent.type).keyboard = k.keyboard ∧ ops ≠ .keyboard := by
    cases ht : typeOps dent.type with
    | none =>
      rw [setFileopPtr_of_none fd ht, curFd_eq hc] at hops
      refine ⟨by rw [setFileopPtr_of_none fd ht], ?_⟩
      rintro rfl
      exact hl.ne_keyboard h2 h7 hops
    | some ops' =>
      have hcur : (k.setFileopPtr fd dent.type).cur.curFdPtr = .fdTable p := by
        rw [setFileopPtr_eq fd ht, cur_setCurFd, hc]
      rw [curFd_eq hcur, setFileopPtr_eq fd ht, table_setCurFd hc, Function.update_self] at hops
      obtain rfl := Option.some.inj hops
      refine ⟨by rw [setFileopPtr_eq fd ht, keyboard_setCurFd], ?_⟩
      rintro rfl
      unfold typeOps at ht
      split_ifs at ht <;> simp at ht
  exact (keyboard_opsOpen hptr.2 fd dent.inode).trans hptr.1

/-- Descriptors 0 and 1 are never closed. -/
theorem keyboard_sysClose (hc : k.cur.curFdPtr = .fdTable p) (hl : TableLaw (k.table p) opens)
    {fd : ℤ} {r : ℤ × Kernel} (h : k.sysClose fd = some r) : r.2.keyboard = k.keyboard := by
  unfold sysClose minFd maxFd at h
  split_ifs at h with h₁ h₂
  · obtain rfl := Option.some.inj h
    rfl
  · obtain rfl := Option.some.inj h
    rfl
  · obtain ⟨ops, hops, rfl⟩ := Option.map_eq_some_iff.1 h
    rw [curFd_eq hc] at hops
    refine keyboard_opsClose ?_ _
    rintro rfl
    exact hl.ne_keyboard (by omega) (by omega) hops

theorem keyboard_foldlM_sysClose (l : List ℤ) {k' : Kernel} (hc : k.cur.curFdPtr = .fdTable p)
    (hl : TableLaw (k.table p) opens)
    (h : l.foldlM (fun k i => (k.sysClose i).map Prod.snd) k = some k') :
    k'.keyboard = k.keyboard := by
  induction l generalizing k opens with
  | nil =>
    obtain rfl := Option.some.inj h
    rfl
  | cons i l ih =>
    obtain ⟨ret, k₁, hclose, hl', -⟩ := sysClose_spec hc hl i
    rw [List.foldlM_cons, hclose] at h
    have hcur : k₁.cur = k.cur := (onlyFds_sysClose hclose).context.cur
    exact (ih (hcur ▸ hc) hl' h).trans (keyboard_sysClose hc hl hclose)

theorem keyboard_closeAll {k' : Kernel} (h : k.closeAll = some k')
    (hc : k.cur.curFdPtr = .fdTable p) (hl : TableLaw (k.table p) opens) :
    k'.keyboard = k.keyboard :=
  keyboard_foldlM_sysClose _ hc hl h

/-- An exit closes descriptors from 2 on, so it leaves the keyboard alone. -/
theorem keyboard_halt (hc : k.cur.curFdPtr = .fdTable p) (hl : TableLaw (k.table p) opens)
    {status : Byte} {frame : Frame} {k' : Kernel} (h : k.halt status = some (frame, k')) :
    k'.keyboard = k.keyboard := by
  simp only [halt] at h
  obtain ⟨k₁, hclose, h⟩ := Option.map_eq_some_iff.1 h
  obtain ⟨-, rfl⟩ := Prod.mk.inj h
  have hk₁ := fun hc' => keyboard_closeAll hclose hc' hl
  refine hk₁ ?_
  simpa [cur, modifyCur, setEsp0, setRetStatus, setInterruptFlag, clearVid] using hc

/-- So does an exit after an exception. -/
theorem keyboard_haltException (hc : k.cur.curFdPtr = .fdTable p)
    (hl : TableLaw (k.table p) opens) {frame : Frame} {k' : Kernel}
    (h : k.haltException = some (frame, k')) : k'.keyboard = k.keyboard := by
  simp only [haltException] at h
  obtain ⟨k₁, hclose, h⟩ := Option.map_eq_some_iff.1 h
  obtain ⟨-, rfl⟩ := Prod.mk.inj h
  have hk₁ := keyboard_closeAll hclose hc hl
  exact hk₁

theorem keyboard_vidmap (screenStart : Word) (k : Kernel) :
    (k.vidmap screenStart).2.2.keyboard = k.keyboard := by
  unfold vidmap
  split_ifs <;> rfl

theorem keyboard_switchVid (target : Terminal) (k : Kernel) :
    (k.switchVid target).keyboard = k.keyboard := by
  unfold switchVid
  split_ifs <;> rfl

/-! ## The read of descriptor 0 -/

/-- Descriptor 0 is the keyboard. -/
theorem sysRead_zero (hc : k.cur.curFdPtr = .fdTable p) (hl : TableLaw (k.table p) opens)
    (img : Image) {buf : Word} (hbuf : buf ≠ 0) (nbytes : ℤ) :
    (k.curFd 0).flags ≠ 0 ∧
      k.sysRead img 0 buf nbytes = (k.keyboardRead 0).map (ReadResult.storeAt buf) := by
  obtain ⟨hptr, hflags⟩ := hl.std 0 (by decide)
  have hf : (k.curFd 0).flags ≠ 0 := by
    rw [curFd_eq hc, hflags]
    decide
  refine ⟨hf, ?_⟩
  rw [sysRead, if_neg (by decide), if_neg hbuf, Int.toNat_zero, if_neg hf, if_neg (by decide),
    curFd_eq hc, hptr]
  rfl

/-- No other read gets at the keyboard. -/
theorem keyboard_sysRead (hc : k.cur.curFdPtr = .fdTable p) (hl : TableLaw (k.table p) opens)
    {img : Image} {fd : ℤ} {buf : Word} {nbytes : ℤ} {r : ReadResult}
    (h : k.sysRead img fd buf nbytes = some r) (hne : ¬(fd = 0 ∧ buf ≠ 0)) :
    r.kernel.keyboard = k.keyboard := by
  by_cases hbuf : buf = 0
  · rw [sysRead, if_pos hbuf, ite_self] at h
    obtain rfl := Option.some.inj h
    rfl
  · rcases sysRead_cases h with rfl | ⟨ops, r', ⟨h1, h0, h7⟩, ⟨hops, -⟩, hread, rfl⟩
    · rfl
    · have hfd : fd ≠ 0 := fun h => hne ⟨h, hbuf⟩
      rw [curFd_eq hc] at hops
      have hkey : r'.kernel.keyboard = k.keyboard := by
        refine keyboard_opsRead ?_ hread
        rintro rfl
        exact hl.ne_keyboard (by omega) (by omega) hops
      exact hkey

end Kernel

/-- The events that get at the line buffers : a key, and a read of descriptor 0. -/
def Event.OnLines : Event → Prop
  | .interruptKeyboard _ => True
  | .read fd buf _ => fd = 0 ∧ buf ≠ 0
  | _ => False

/-- A key, a read of descriptor 0, or an event that leaves the lines alone. -/
theorem Event.onLines_cases (e : Event) : (∃ code, e = .interruptKeyboard code) ∨
    (∃ buf nbytes, buf ≠ 0 ∧ e = .read 0 buf nbytes) ∨ ¬e.OnLines := by
  by_cases he : e.OnLines
  · cases e with
    | interruptKeyboard code => exact Or.inl ⟨code, rfl⟩
    | read fd buf nbytes =>
      obtain ⟨rfl, hbuf⟩ := he
      exact Or.inr (Or.inl ⟨buf, nbytes, hbuf, rfl⟩)
    | _ => exact False.elim he
  · exact Or.inr (Or.inr he)

namespace Machine

variable {img : Image} {m m' : Machine} {opens : Word → Opens} {l : Terminal → List Byte}

/-! ## One step -/

theorem Lawful.own (h : Lawful (m, opens)) {p : Word} (hp : m.running = some p) :
    m.kernel.cur.curFdPtr = .fdTable p ∧ TableLaw (m.kernel.table p) (opens p) :=
  ⟨(h.coherent.installed hp).curFdPtr, h.law p (h.coherent.running_mem hp)⟩

/-- No other step changes a line, a counter or a flag. -/
theorem step_sameLines (h : Lawful (m, opens)) {e : Event} (hstep : m.step img e = some m')
    (he : ¬e.OnLines) : m.kernel.SameLines m'.kernel := by
  refine .of_eq ?_
  cases step_cases hstep with
  | fail _ => rfl
  | start _ hs => exact hs.keyboard
  | exit hcall hm' =>
    obtain ⟨frame, k, hk, hr, hres⟩ := exit_eq_some hm'
    obtain ⟨p, hp⟩ := Option.ne_none_iff_exists'.1 hr
    rw [resume_kernel hres]
    cases hcall with
    | halt status => exact Kernel.keyboard_halt (h.own hp).1 (h.own hp).2 hk
    | haltException => exact Kernel.keyboard_haltException (h.own hp).1 (h.own hp).2 hk
  | fdCall hr hcall =>
    obtain ⟨p, hp⟩ := Option.ne_none_iff_exists'.1 hr
    cases hcall with
    | «open» hr' => exact Kernel.keyboard_sysOpen (h.own hp).1 (h.own hp).2 hr'
    | close hr' => exact Kernel.keyboard_sysClose (h.own hp).1 (h.own hp).2 hr'
    | read hr' => exact Kernel.keyboard_sysRead (h.own hp).1 (h.own hp).2 hr' he
    | write hr' => exact Kernel.keyboard_sysWrite hr'
  | vidmap _ => exact Kernel.keyboard_vidmap _ _
  | switch frame => exact Kernel.interruptPit_keyboard frame m.kernel
  | quiet hquiet =>
    cases hquiet with
    | interruptKeyboard code => exact absurd trivial he
    | interruptRtc => rfl
    | switchVid target => exact Kernel.keyboard_switchVid _ _

/-- A running process belongs to the scheduled terminal. -/
theorem Coherent.screenIdx (h : m.Coherent) {p : Word} (hp : m.running = some p) :
    (m.kernel.proc.pcb p).screenIdx = m.terminal.word := by
  obtain ⟨c, rest, hs, hc, -, hsaved⟩ := h.stack_eq (by simp [hp])
  rw [running, hs, List.head?_cons, Option.map_some, Option.some.injEq] at hp
  rw [← hp]
  exact hsaved.screenIdx

/-- A completed read of descriptor 0 returns the line of the reader's own terminal, which is
visible then, empties it and lowers its flag. -/
theorem read_line (h : Lawful (m, opens)) (hl : m.kernel.Lines l) {p : Word}
    (hp : m.running = some p) {buf : Word} (hbuf : buf ≠ 0) {nbytes : ℤ} {r : Kernel.ReadResult}
    (hr : m.kernel.sysRead img 0 buf nbytes = some r) :
    (r.ret = (l m.terminal).length ∧ r.stored = l m.terminal ++ [0]) ∧
      r.kernel.Lines (Function.update l m.terminal []) ∧
      r.kernel.keyboard.flagKeyboard =
        Function.update m.kernel.keyboard.flagKeyboard m.terminal 0 := by
  obtain ⟨hf, hread⟩ := Kernel.sysRead_zero (h.own hp).1 (h.own hp).2 img hbuf nbytes
  rw [hread] at hr
  obtain ⟨r', hr', rfl⟩ := Option.map_eq_some_iff.1 hr
  obtain ⟨hidx, -, -, -, -, -, -, -, hflag, -⟩ := Kernel.keyboardRead_eq hf hr'
  obtain ⟨hret, hstored, hlines⟩ := hl.keyboardRead hf hr'
  have hvis : m.kernel.screen.visibleScreen = m.terminal := by
    rw [(h.coherent.installed hp).curPid, h.coherent.screenIdx hp] at hidx
    exact (Terminal.word_inj.1 hidx).symm
  rw [hvis] at hret hstored hlines hflag
  have hsame : r'.kernel.SameLines (r'.storeAt buf).kernel := .of_eq rfl
  exact ⟨⟨hret, hstored⟩, hsame.lines hlines, hflag⟩

/-- The history of the characters typed and not yet read. -/
def recordLines (m : Machine) (e : Event) (l : Terminal → List Byte) : Terminal → List Byte :=
  match e with
  | .interruptKeyboard code => m.kernel.typed code l
  | .read fd buf _ => if fd = 0 ∧ buf ≠ 0 then Function.update l m.terminal [] else l
  | _ => l

theorem recordLines_of_not_onLines {e : Event} (he : ¬e.OnLines) : recordLines m e l = l := by
  cases e with
  | read fd buf nbytes => exact if_neg he
  | interruptKeyboard code => exact absurd trivial he
  | _ => rfl

/-- A read of descriptor 0 takes the terminal's line. -/
theorem recordLines_read {buf : Word} (hbuf : buf ≠ 0) (nbytes : ℤ) :
    recordLines m (.read 0 buf nbytes) l = Function.update l m.terminal [] :=
  if_pos ⟨rfl, hbuf⟩

/-- Every step does to the buffers what it does to the history. -/
theorem lines_step (h : Lawful (m, opens)) (hl : m.kernel.Lines l) {e : Event}
    (hstep : m.step img e = some m') : m'.kernel.Lines (recordLines m e l) := by
  rcases e.onLines_cases with ⟨code, rfl⟩ | ⟨buf, nbytes, hbuf, rfl⟩ | he
  · obtain rfl := Option.some.inj hstep
    exact (hl.interruptKeyboard code).1
  · obtain ⟨k, hk, hr, rfl⟩ := userCall_eq_some hstep
    obtain ⟨r, hr', rfl⟩ := Option.map_eq_some_iff.1 hk
    obtain ⟨p, hp⟩ := Option.ne_none_iff_exists'.1 hr
    rw [recordLines_read hbuf]
    exact (read_line h hl hp hbuf hr').2.1
  · rw [recordLines_of_not_onLines he]
    exact (step_sameLines h hstep he).lines hl

/-- The buffers hold the characters typed and not yet read. -/
def Input (s : Machine × (Terminal → List Byte)) : Prop :=
  (∃ opens, Lawful (s.1, opens)) ∧ s.1.kernel.Lines s.2

/-- Every step keeps the lines recorded and the buffers in step. -/
theorem input_step {s s' : Machine × (Terminal → List Byte)} {e : Event} (h : Input s)
    (hstep : Transition.track (step img) recordLines s e = some s') : Input s' := by
  obtain ⟨⟨opens, hlaw⟩, hl⟩ := h
  obtain ⟨hm, hrec⟩ := Transition.track_eq_some_iff.1 hstep
  refine ⟨⟨_, lawful_step hlaw hm⟩, ?_⟩
  rw [hrec]
  exact lines_step hlaw hl hm

theorem keyboard_processInit (k : Kernel) : k.processInit.keyboard = k.keyboard :=
  Kernel.processInit_frame Kernel.keyboard (fun _ _ _ => rfl) k

theorem keyboard_boot (k : Kernel) : k.boot.keyboard = { k.keyboard with
    keyStatus := 0, keyFlag := 0, flagKeyboard := fun _ => 0, counter1 := 0, counter2 := 0,
    counter3 := 0, terminalFlag := 0 } := by
  have hinit : ∀ k : Kernel, k.keyboardInit.keyboard = { k.keyboard with
      keyStatus := 0, keyFlag := 0, flagKeyboard := fun _ => 0, counter1 := 0, counter2 := 0,
      counter3 := 0, terminalFlag := 0 } := by
    intro k
    simp only [Kernel.keyboardInit, Kernel.keyboard_setCurFd]
  have hboot : k.boot.keyboard =
      (k.initFilesys.setEsp0 0x800000).keyboardInit.processInit.keyboard := rfl
  rw [hboot, keyboard_processInit, hinit]
  rfl

/-- At boot all lines are empty. -/
theorem input_boot {m : Machine} (h : m.Booted) : Input (m, fun _ => []) := by
  refine ⟨⟨fun _ _ => none, lawful_boot h _⟩, ?_⟩
  obtain ⟨k, hk, rfl⟩ := h
  have hkey := keyboard_boot k
  refine ⟨fun t => holds_nil fun i _ => ?_, fun t => ?_, fun t => List.not_mem_nil⟩
  · rcases Kernel.terminal_cases t with rfl | rfl | rfl <;>
      simp [Kernel.lineBuffer, hkey, hk.terminal1Buffer, hk.terminal2Buffer, hk.terminal3Buffer]
  · simp [Kernel.counter, hkey]

/-! ## No input is lost -/

/-- What holds of the buffers and the readers when the history is `s.2`. -/
structure InputKept (img : Image) (s : Machine × (Terminal → List Byte)) : Prop where
  counter : ∀ t, s.1.kernel.counter t = (s.2 t).length ∧ s.1.kernel.counter t < bufferSize
  pending : ∀ t, ∀ i (h : i < (s.2 t).length),
    s.1.kernel.lineBuffer t i = (s.2 t)[i] ∧ s.1.kernel.lineBuffer t i ≠ 0
  rest : ∀ t i, s.1.kernel.counter t ≤ i → i < bufferSize → s.1.kernel.lineBuffer t i = 0
  read : ∀ p buf nbytes r, s.1.running = some p → buf ≠ 0 →
    s.1.kernel.sysRead img 0 buf nbytes = some r →
      (s.1.kernel.proc.pcb p).screenIdx = s.1.terminal.word ∧
        r.ret = (s.2 s.1.terminal).length ∧ r.stored = s.2 s.1.terminal ++ [0]
  ready : ∀ p buf nbytes, s.1.running = some p → buf ≠ 0 →
    s.1.kernel.screen.visibleScreen = s.1.terminal →
    s.1.kernel.keyboard.flagKeyboard s.1.terminal ≠ 0 →
      (s.1.kernel.sysRead img 0 buf nbytes).isSome

theorem Input.inputKept {s : Machine × (Terminal → List Byte)} (h : Input s)
    (hs : ∀ t, (s.2 t).length ≤ 127) : InputKept img s := by
  obtain ⟨⟨opens, hlaw⟩, hl⟩ := h
  have hlt : ∀ t, (s.2 t).length < bufferSize := fun t => Nat.lt_succ_of_le (hs t)
  refine ⟨fun t => ⟨hl.counter t, hl.counter t ▸ hlt t⟩, fun t i hi => ?_, fun t i hi hn => ?_,
    fun p buf nbytes r hp hbuf hr => ?_, fun p buf nbytes hp hbuf hvis hflag => ?_⟩
  · have hget := (hl.holds t).getElem hi (hi.trans (hlt t))
    refine ⟨hget, fun h0 => hl.nul t ?_⟩
    rw [← h0, hget]
    exact List.getElem_mem hi
  · rw [hl.counter] at hi
    exact (hl.holds t).zero hi hn
  · exact ⟨hlaw.coherent.screenIdx hp, (read_line hlaw hl hp hbuf hr).1⟩
  · rw [(Kernel.sysRead_zero (hlaw.own hp).1 (hlaw.own hp).2 img hbuf nbytes).2, Option.isSome_map]
    refine Kernel.isSome_keyboardRead ?_ (hvis ▸ hflag) ?_
    · rw [(hlaw.coherent.installed hp).curPid, hlaw.coherent.screenIdx hp, hvis]
    · exact ((hl.holds _).isSome_strlen_iff (hl.nul _)).2 (hlt _)

/-- In every run from boot in which no terminal has more than 127 unread characters, each
completed read returns what was typed on the reader's terminal since the last one, and the
buffers hold what is still to be read. -/
theorem allStates_inputKept {m : Machine} (h : m.Booted) {es : List Event}
    (hown : Transition.AllEvents (step img) (OwnReads img) m es)
    (hs : Transition.AllStates (Transition.track (step img) recordLines)
      (fun s => ∀ t, (s.2 t).length ≤ 127) (m, fun _ => []) es) :
    Transition.AllStates (Transition.track (step img) recordLines) (InputKept img)
      (m, fun _ => []) es :=
  hs.imp (Transition.allEvents_track.2 hown) (fun _ _ _ hi _ => input_step hi)
    (fun _ hi hq => hi.inputKept hq) (input_boot h)

/-- A step adds one character to a line at most. -/
theorem length_recordLines (m : Machine) (e : Event) (l : Terminal → List Byte) (t : Terminal) :
    (recordLines m e l t).length ≤ (l t).length + 1 := by
  rcases e.onLines_cases with ⟨code, rfl⟩ | ⟨buf, nbytes, hbuf, rfl⟩ | he
  · exact (m.kernel.length_typed code l t).2
  · rw [recordLines_read hbuf]
    rcases eq_or_ne t m.terminal with rfl | hne
    · simp
    · simp [hne]
  · rw [recordLines_of_not_onLines he]
    exact Nat.le_succ _

/-- A line does not fill up in fewer steps than it has room for. -/
theorem allStates_length_le {n : ℕ} {es : List Event} {s : Machine × (Terminal → List Byte)}
    (hs : ∀ t, (s.2 t).length + es.length ≤ n) :
    Transition.AllStates (Transition.track (step img) recordLines)
      (fun s => ∀ t, (s.2 t).length ≤ n) s es := by
  induction es generalizing s with
  | nil => exact hs
  | cons e es ih =>
    refine ⟨fun t => (Nat.le_add_right _ _).trans (hs t), fun s' hstep => ih fun t => ?_⟩
    have hone := length_recordLines s.1 e s.2 t
    have hroom := hs t
    rw [(Transition.track_eq_some_iff.1 hstep).2]
    rw [List.length_cons] at hroom
    omega

theorem allStates_inputKept_first :
    Transition.AllStates (Transition.track (step Kernel.shellImage) recordLines)
      (InputKept Kernel.shellImage) (first, fun _ => [])
      [.execute ⟨0, 0, fun _ => 0⟩ Kernel.shellCommand, .interruptKeyboard 0x1E,
        .interruptKeyboard 0x1C, .read 0 0x8048000 128] :=
  allStates_inputKept first_booted (by decide) (allStates_length_le fun _ => by simp)

/-! ## Full lines -/

theorem Input.step {l : Terminal → List Byte} (h : Input (m, l)) {e : Event}
    (hstep : m.step img e = some m') : Input (m', recordLines m e l) :=
  input_step h (Transition.track_eq_some_iff.2 ⟨hstep, rfl⟩)

theorem Input.lines {l : Terminal → List Byte} (h : Input (m, l)) : m.kernel.Lines l :=
  h.2

/-- Some history goes with every state. -/
theorem exists_input_step (m : Machine) (e : Event) (m' : Machine) (h : ∃ l, Input (m, l))
    (_ : OwnReads img m e) (hstep : m.step img e = some m') : ∃ l, Input (m', l) := by
  obtain ⟨l, hl⟩ := h
  exact ⟨_, hl.step hstep⟩

/-- The lines lie in their buffers, with their terminators. -/
def Fits (m : Machine) : Prop :=
  ∀ t, m.kernel.counter t ≤ 127 ∧ (strlen bufferSize (m.kernel.lineBuffer t)).isSome

/-- A key that types a character finds fewer than 127 in the line of the visible terminal. -/
def FitsOk (m : Machine) : Event → Prop
  | .interruptKeyboard code =>
    m.kernel.keyChar code ≠ 0 → m.kernel.counter m.kernel.screen.visibleScreen < 127
  | _ => True

theorem fitsOk_of_not_onLines {e : Event} (he : ¬e.OnLines) : FitsOk m e := by
  cases e with
  | interruptKeyboard code => exact absurd trivial he
  | _ => trivial

/-- The buffers are not overrun while no line is longer than 127. -/
theorem Input.fits_iff (h : Input (m, l)) : m.Fits ↔ ∀ t, (l t).length ≤ 127 := by
  refine forall_congr' fun t => ?_
  rw [h.lines.counter, (h.lines.holds t).isSome_strlen_iff (h.lines.nul t), bufferSize,
    Nat.lt_succ_iff, and_self_iff]

/-- A key keeps the lines short when there is room for what it types. -/
theorem fits_interruptKeyboard {l : Terminal → List Byte} (hlen : ∀ t, (l t).length ≤ 127)
    (k : Kernel) (code : Byte) :
    (∀ t, (k.typed code l t).length ≤ 127) ↔
      (k.keyChar code ≠ 0 → (l k.screen.visibleScreen).length < 127) := by
  obtain ⟨-, -, hdel, -⟩ := k.getchar_lines code
  by_cases hc : code = deletePress
  · refine iff_of_true (fun t => ?_) fun h => absurd (hdel hc).1 h
    rw [Kernel.typed, if_pos hc]
    rcases eq_or_ne t k.screen.visibleScreen with rfl | hne
    · rw [Function.update_self, List.length_dropLast]
      exact (Nat.sub_le _ _).trans (hlen _)
    · rw [Function.update_of_ne hne]
      exact hlen t
  · by_cases h0 : k.keyChar code = 0
    · refine iff_of_true (fun t => ?_) fun h => absurd h0 h
      rw [Kernel.typed, if_neg hc, if_pos h0]
      exact hlen t
    · rw [Kernel.typed, if_neg hc, if_neg h0]
      constructor
      · intro h _
        have hv := h k.screen.visibleScreen
        rw [Function.update_self, List.length_append, List.length_singleton] at hv
        exact hv
      · intro h t
        rcases eq_or_ne t k.screen.visibleScreen with rfl | hne
        · rw [Function.update_self, List.length_append, List.length_singleton]
          exact h h0
        · rw [Function.update_of_ne hne]
          exact hlen t

/-- The step keeps the buffers from overrunning exactly under its condition. -/
theorem fits_step {e : Event} (h : Input (m, l)) (hq : m.Fits) (hstep : m.step img e = some m') :
    m'.Fits ↔ FitsOk m e := by
  have hlen := h.fits_iff.1 hq
  rw [(h.step hstep).fits_iff]
  rcases e.onLines_cases with ⟨code, rfl⟩ | ⟨buf, nbytes, hbuf, rfl⟩ | he
  · refine (fits_interruptKeyboard hlen m.kernel code).trans ?_
    rw [FitsOk, h.lines.counter]
  · refine iff_of_true (fun t => ?_) trivial
    rw [recordLines_read hbuf]
    rcases eq_or_ne t m.terminal with rfl | hne
    · simp
    · simpa [hne] using hlen t
  · rw [recordLines_of_not_onLines he]
    exact iff_of_true hlen (fitsOk_of_not_onLines he)

/-- In a run from boot all lines stay in their buffers exactly when no key of the run types a
character on a terminal that holds 127. -/
theorem allStates_fits_iff {m : Machine} (h : m.Booted) {es : List Event}
    (hown : Transition.AllEvents (step img) (OwnReads img) m es) :
    Transition.AllStates (step img) Fits m es ↔
      Transition.AllSteps (step img) (fun m e _ => FitsOk m e) m es := by
  refine Transition.allStates_iff_allSteps exists_input_step ?_ hown ⟨_, input_boot h⟩ ?_
  · rintro m e m' ⟨l, hl⟩ hq hstep
    exact fits_step hl hq hstep
  · exact (input_boot h).fits_iff.2 fun _ => Nat.zero_le _

instance decidableFitsOk (m : Machine) : ∀ e, Decidable (FitsOk m e)
  | .interruptKeyboard code => inferInstanceAs (Decidable
      (m.kernel.keyChar code ≠ 0 → m.kernel.counter m.kernel.screen.visibleScreen < 127))
  | .execute _ _ | .halt _ | .haltException | .open _ | .close _ | .read _ _ _ | .write _ _ _
  | .vidmap _ | .contextSwitch _ | .interruptRtc | .switchVid _ => .isTrue trivial

/-- A line is typed and read, and the next one is begun on another terminal. -/
theorem allStates_fits_first :
    Transition.AllStates (step Kernel.shellImage) Fits first
      [.execute ⟨0, 0, fun _ => 0⟩ Kernel.shellCommand, .interruptKeyboard 0x1E,
        .interruptKeyboard 0x1C, .read 0 0x8048000 128, .switchVid 1, .interruptKeyboard 0x1E] :=
  (allStates_fits_iff first_booted (by decide)).2
    (Transition.AllEvents.allSteps (P := FitsOk) (by decide))

/-- The key of the letter a, with neither shift nor caps lock. -/
theorem press_a {k : Kernel} (hk : k.keyboard.keyStatus = 0) :
    k.keyChar 0x1E = 97 ∧ (k.interruptKeyboard 0x1E).keyboard.keyStatus = 0 ∧
      (k.interruptKeyboard 0x1E).screen.visibleScreen = k.screen.visibleScreen := by
  have hcode : k.getScancode 0x1E = (0x1E, k) := by
    simp [Kernel.getScancode, shiftPress, shiftRelease, capsLockPress, ctrlPress, ctrlRelease,
      leftAltPress, leftAltRelease, f1Press, f2Press, f3Press, lPress, deletePress,
      keyPressBoundary]
  have hchar : k.getchar 0x1E = (97, k) := by
    simp only [Kernel.getchar, hcode, hk]
    rfl
  have hstore : ∀ c, (k.storeKey c).keyboard.keyStatus = 0 := by
    intro c
    have hput := (Kernel.onlyScreen_putcKeyboard c k).keyboard
    unfold Kernel.storeKey
    split_ifs <;> simp [Kernel.setLine1, Kernel.setLine2, Kernel.setLine3, hput, hk]
  refine ⟨congrArg Prod.fst hchar, ?_, ?_⟩
  · rw [Kernel.interruptKeyboard_eq, hchar]
    simp only [Kernel.finishKey, if_neg (by decide : ¬(97 : Byte) = 0)]
    split_ifs
    · exact hstore 97
    · exact hstore 97
  · rw [Kernel.interruptKeyboard_eq, hchar]
    exact (Kernel.onlyDevices_finishKey 97 k).visibleScreen

theorem allStates_fits_replicate (n : ℕ) {m : Machine} (hi : Input (m, l))
    (hk : m.kernel.keyboard.keyStatus = 0)
    (h : Transition.AllStates (step img) Fits m (List.replicate n (.interruptKeyboard 0x1E))) :
    (l m.kernel.screen.visibleScreen).length + n ≤ 127 := by
  induction n generalizing m l with
  | zero => exact hi.fits_iff.1 h.head _
  | succ n ih =>
    rw [List.replicate_succ] at h
    obtain ⟨hchar, hstatus, hvis⟩ := press_a hk
    have hstep : m.step img (.interruptKeyboard 0x1E) =
        some (m.withKernel (m.kernel.interruptKeyboard 0x1E)) := rfl
    have hn := ih (hi.step hstep) hstatus (h.2 _ hstep)
    have htyped : recordLines m (.interruptKeyboard 0x1E) l = Function.update l
        m.kernel.screen.visibleScreen (l m.kernel.screen.visibleScreen ++ [97]) := by
      show m.kernel.typed 0x1E l = _
      rw [Kernel.typed, hchar, if_neg (by decide), if_neg (by decide)]
    have hvis' : (m.withKernel (m.kernel.interruptKeyboard 0x1E)).kernel.screen.visibleScreen =
      m.kernel.screen.visibleScreen := hvis
    rw [htyped, hvis', Function.update_self, List.length_append, List.length_singleton] at hn
    omega

/-- 128 keys in a row, with no reader. -/
theorem not_allStates_fits :
    ¬Transition.AllStates (step Kernel.shellImage) Fits first
      (List.replicate 128 (.interruptKeyboard 0x1E)) := by
  intro h
  have hk : first.kernel.keyboard.keyStatus = 0 := congrArg Keyboard.keyStatus (keyboard_boot _)
  exact absurd (allStates_fits_replicate 128 (input_boot first_booted) hk h) (by decide)

/-! ## Ready lines -/

/-- A key leaves the visible terminal's line ready if another terminal's is full, or if it is
backspace and the flag is up. -/
def ReadyOk (m : Machine) : Event → Prop
  | .interruptKeyboard code =>
    let t := m.kernel.shown code
    (∃ t', t' ≠ t ∧ 127 ≤ m.kernel.counter t') ∨
        code = deletePress ∧ m.kernel.keyboard.flagKeyboard t = 1 →
      LineReady (m.kernel.typed code m.kernel.line t)
  | _ => True

instance decidableReadyOk (m : Machine) : ∀ e, Decidable (ReadyOk m e)
  | .interruptKeyboard code => inferInstanceAs (Decidable
      ((∃ t', t' ≠ m.kernel.shown code ∧ 127 ≤ m.kernel.counter t') ∨
          code = deletePress ∧ m.kernel.keyboard.flagKeyboard (m.kernel.shown code) = 1 →
        LineReady (m.kernel.typed code m.kernel.line (m.kernel.shown code))))
  | .execute _ _ | .halt _ | .haltException | .open _ | .close _ | .read _ _ _ | .write _ _ _
  | .vidmap _ | .contextSwitch _ | .interruptRtc | .switchVid _ => .isTrue trivial

end Machine

end MpOS
