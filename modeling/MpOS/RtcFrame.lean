import MpOS.Preemption

/-!
# The RTC and the rest of the kernel

`rate` and `flag_rtc` are written by the RTC's driver and its interrupt and read by
nothing else. So every routine does the same to the rest of the kernel whatever they hold
(`withRtc`), and a step of the machine sets the flag, clears it or leaves it as it is
(`step_withRtc`).
-/

namespace MpOS

namespace Kernel

/-- The kernel with other values of `rate` and `flag_rtc`. -/
def withRtc (k : Kernel) (r : Rtc) : Kernel :=
  { k with rtc := r }

section Leaves

variable (k : Kernel) (r : Rtc)

@[simp] theorem withRtc_proc : (k.withRtc r).proc = k.proc :=
  rfl

@[simp] theorem withRtc_screen : (k.withRtc r).screen = k.screen :=
  rfl

@[simp] theorem withRtc_keyboard : (k.withRtc r).keyboard = k.keyboard :=
  rfl

@[simp] theorem withRtc_cur : (k.withRtc r).cur = k.cur :=
  rfl

@[simp] theorem withRtc_curFd (fd : ℕ) : (k.withRtc r).curFd fd = k.curFd fd := by
  simp only [curFd, withRtc_cur]
  cases k.cur.curFdPtr <;> rfl

@[simp] theorem withRtc_counter (t : Terminal) : (k.withRtc r).counter t = k.counter t :=
  rfl

@[simp] theorem withRtc_store (a : ℕ) (b : Byte) :
    (k.withRtc r).store a b = (k.store a b).withRtc r :=
  rfl

@[simp] theorem withRtc_setCursor (t : Terminal) (x y : ℕ) :
    (k.withRtc r).setCursor t x y = (k.setCursor t x y).withRtc r :=
  rfl

@[simp] theorem withRtc_storeCell (base n : ℕ) (c : Byte) :
    (k.withRtc r).storeCell base n c = (k.storeCell base n c).withRtc r :=
  rfl

@[simp] theorem withRtc_scrollCell (dest src n : ℕ) :
    (k.withRtc r).scrollCell dest src n = (k.scrollCell dest src n).withRtc r :=
  rfl

@[simp] theorem withRtc_setLine1 (buf : ℕ → Byte) (n : ℕ) :
    (k.withRtc r).setLine1 buf n = (k.setLine1 buf n).withRtc r :=
  rfl

@[simp] theorem withRtc_setLine2 (buf : ℕ → Byte) (n : ℕ) :
    (k.withRtc r).setLine2 buf n = (k.setLine2 buf n).withRtc r :=
  rfl

@[simp] theorem withRtc_setLine3 (buf : ℕ → Byte) (n : ℕ) :
    (k.withRtc r).setLine3 buf n = (k.setLine3 buf n).withRtc r :=
  rfl

@[simp] theorem withRtc_setFlagKeyboard (t : Terminal) (n : ℕ) :
    (k.withRtc r).setFlagKeyboard t n = (k.setFlagKeyboard t n).withRtc r :=
  rfl

@[simp] theorem withRtc_setFd (ptr : FdPtr) (fd : ℕ) (e : Fd) :
    (k.withRtc r).setFd ptr fd e = (k.setFd ptr fd e).withRtc r := by
  cases ptr <;> rfl

@[simp] theorem withRtc_setCurFd (fd : ℕ) (e : Fd) :
    (k.withRtc r).setCurFd fd e = (k.setCurFd fd e).withRtc r :=
  withRtc_setFd k r _ fd e

@[simp] theorem withRtc_modifyPcb (pid : Word) (f : Pcb → Pcb) :
    (k.withRtc r).modifyPcb pid f = (k.modifyPcb pid f).withRtc r :=
  rfl

@[simp] theorem withRtc_modifyCur (f : SwitchTable → SwitchTable) :
    (k.withRtc r).modifyCur f = (k.modifyCur f).withRtc r :=
  rfl

@[simp] theorem withRtc_setEsp0 (esp0 : Word) :
    (k.withRtc r).setEsp0 esp0 = (k.setEsp0 esp0).withRtc r :=
  rfl

@[simp] theorem withRtc_setInterruptFlag (b : Bool) :
    (k.withRtc r).setInterruptFlag b = (k.setInterruptFlag b).withRtc r :=
  rfl

@[simp] theorem withRtc_setRetStatus (n : ℤ) :
    (k.withRtc r).setRetStatus n = (k.setRetStatus n).withRtc r :=
  rfl

@[simp] theorem withRtc_setPteVid (i : ℕ) (e : Word) :
    (k.withRtc r).setPteVid i e = (k.setPteVid i e).withRtc r :=
  rfl

@[simp] theorem withRtc_mapPageExec (idx : Word) :
    (k.withRtc r).mapPageExec idx = (k.mapPageExec idx).withRtc r :=
  rfl

@[simp] theorem withRtc_storeUser (buf : Word) (bytes : List Byte) :
    (k.withRtc r).storeUser buf bytes = (k.storeUser buf bytes).withRtc r :=
  rfl

@[simp] theorem withRtc_loadProgram (bytes : List Byte) :
    (k.withRtc r).loadProgram bytes = (k.loadProgram bytes).withRtc r :=
  rfl

@[simp] theorem withRtc_saveFrame (frame : ExecFrame) (idx : Word) :
    (k.withRtc r).saveFrame frame idx = (k.saveFrame frame idx).withRtc r :=
  rfl

@[simp] theorem withRtc_clearVid : (k.withRtc r).clearVid = k.clearVid.withRtc r :=
  rfl

@[simp] theorem withRtc_mapScreenBuffer (idx : Word) :
    (k.withRtc r).mapScreenBuffer idx = (k.mapScreenBuffer idx).withRtc r := by
  simp only [mapScreenBuffer, apply_ite (withRtc · r)]
  rfl

end Leaves

/-- A routine that neither reads nor writes the RTC's variables. -/
def RtcFree (f : Kernel → Kernel) : Prop :=
  ∀ k r, f (k.withRtc r) = (f k).withRtc r

/-- A loop over a list commutes with the RTC when its body does. -/
theorem foldl_withRtc {α : Type*} {f : Kernel → α → Kernel}
    (hf : ∀ k a r, f (k.withRtc r) a = (f k a).withRtc r) (l : List α) (k : Kernel) (r : Rtc) :
    l.foldl f (k.withRtc r) = (l.foldl f k).withRtc r := by
  induction l generalizing k with
  | nil => rfl
  | cons a l ih => rw [List.foldl_cons, List.foldl_cons, hf, ih]

/-! ## Output -/

theorem rtcFree_scrollPage (dest src : ℕ) : RtcFree (·.scrollPage dest src) := by
  intro k r
  simp only [scrollPage]
  rw [foldl_withRtc, foldl_withRtc]
  · exact fun k i r => withRtc_storeCell k r _ _ _
  · exact fun k i r => foldl_withRtc (fun k j r => withRtc_scrollCell k r _ _ _) _ k r

theorem rtcFree_wrapCursor {t : Terminal} {scroll : Kernel → Kernel} (hs : RtcFree scroll) :
    RtcFree (wrapCursor t scroll) := by
  intro k r
  simp only [wrapCursor, withRtc_screen, hs k r]
  split_ifs <;> rfl

theorem rtcFree_putChar {t : Terminal} {mem : ℕ} {scroll : Kernel → Kernel} (hs : RtcFree scroll)
    (c : Byte) : RtcFree (putChar t mem scroll c) := by
  intro k r
  simp only [putChar, withRtc_screen, withRtc_setCursor, withRtc_storeCell,
    rtcFree_wrapCursor hs _ r]
  split_ifs <;> rfl

/-- `putc` neither reads nor writes the RTC. -/
theorem rtcFree_putc (c : Byte) : RtcFree (putc c) := by
  have hscroll : RtcFree scrollScreen := fun k r => rtcFree_scrollPage k.outputMem videoMem k r
  intro k r
  exact rtcFree_putChar hscroll c k r

theorem rtcFree_putcKeyboard (c : Byte) : RtcFree (putcKeyboard c) := by
  have hscroll : RtcFree keyScrollScreen := fun k r => rtcFree_scrollPage _ _ k r
  intro k r
  exact rtcFree_putChar hscroll c k r

theorem rtcFree_keyClearScreen : RtcFree keyClearScreen := by
  intro k r
  simp only [keyClearScreen]
  rw [foldl_withRtc, withRtc_setCursor, withRtc_screen]
  exact fun k i r => foldl_withRtc (fun k j r => withRtc_storeCell k r _ _ _) _ k r

theorem rtcFree_deleteChar : RtcFree deleteChar := by
  intro k r
  simp only [deleteChar, withRtc_screen, withRtc_counter, withRtc_store, withRtc_setCursor,
    apply_ite (withRtc · r)]
  rfl

/-! ## The keyboard -/

/-- Nor does a switch of the visible screen. -/
theorem rtcFree_switchVid (target : Terminal) : RtcFree (switchVid target) := by
  intro k r
  simp only [switchVid, apply_ite (withRtc · r)]
  rfl

theorem rtcFree_deleteKey : RtcFree deleteKey := by
  intro k r
  simp only [deleteKey, withRtc_screen, withRtc_keyboard, rtcFree_deleteChar k r, withRtc_setLine1,
    withRtc_setLine2, withRtc_setLine3, apply_ite (withRtc · r)]

/-- The decoder returns the same code and touches no more than the key state. -/
theorem withRtc_getScancode (k : Kernel) (r : Rtc) (code : Byte) :
    (k.withRtc r).getScancode code = (k.getScancode code).map id (withRtc · r) := by
  simp only [getScancode, apply_ite (Prod.map id (withRtc · r)), Prod.map_apply, id_eq,
    withRtc_keyboard, rtcFree_switchVid _ k r, rtcFree_keyClearScreen k r, rtcFree_deleteKey k r]
  rfl

theorem rtcFree_storeKey (scancode : Byte) : RtcFree (storeKey scancode) := by
  intro k r
  simp only [storeKey, withRtc_screen, withRtc_keyboard, rtcFree_putcKeyboard scancode k r,
    withRtc_setLine1, withRtc_setLine2, withRtc_setLine3, apply_ite (withRtc · r)]

theorem rtcFree_finishKey (scancode : Byte) : RtcFree (finishKey scancode) := by
  intro k r
  simp only [finishKey, rtcFree_storeKey scancode k r, ← apply_ite (withRtc · r)]
  generalize (if scancode = 0 then k else k.storeKey scancode) = k₁
  simp only [withRtc_keyboard, withRtc_screen, withRtc_setFlagKeyboard, apply_ite (withRtc · r)]
  rfl

/-- A key press leaves the RTC alone and does the same whatever it holds. -/
theorem rtcFree_interruptKeyboard (code : Byte) : RtcFree (interruptKeyboard code) := by
  intro k r
  rw [interruptKeyboard_eq, interruptKeyboard_eq]
  simp only [getchar, withRtc_getScancode]
  exact rtcFree_finishKey _ _ _

/-! ## Descriptors -/

variable (k : Kernel) (r : Rtc)

/-- `file_close`, `directory_close` and the others : the same reply and table. -/
theorem withRtc_closeFd (inode : Word) (fd : ℕ) :
    (k.withRtc r).closeFd inode fd = (k.closeFd inode fd).map id (withRtc · r) := by
  simp only [closeFd, apply_ite (Prod.map id (withRtc · r)), Prod.map_apply, id_eq, withRtc_curFd,
    withRtc_setCurFd]

/-- No driver's close touches the RTC : in `rtc_close` the line that would is commented out. -/
theorem withRtc_opsClose (ops : Fileops) (fd : ℕ) :
    (k.withRtc r).opsClose ops fd = (k.opsClose ops fd).map id (withRtc · r) := by
  cases ops with
  | fileop => exact withRtc_closeFd k r _ fd
  | directory => exact withRtc_closeFd k r _ fd
  | rtc => exact withRtc_closeFd k r _ fd
  | keyboard =>
    have hlines : (k.withRtc r).clearLines = k.clearLines.withRtc r := rfl
    simp only [opsClose, keyboardClose, apply_ite (Prod.map id (withRtc · r)), Prod.map_apply,
      id_eq, withRtc_curFd, hlines, withRtc_setCurFd]

/-- A close faults, fails or succeeds as it would with any other RTC. -/
theorem withRtc_sysClose (fd : ℤ) :
    (k.withRtc r).sysClose fd = (k.sysClose fd).map (Prod.map id (withRtc · r)) := by
  simp only [sysClose, apply_ite (Option.map (Prod.map id (withRtc · r))), Option.map_some,
    Option.map_map, withRtc_curFd, withRtc_opsClose]
  rfl

theorem withRtc_foldlM_sysClose (l : List ℤ) :
    l.foldlM (fun k i => (sysClose i k).map Prod.snd) (k.withRtc r) =
      (l.foldlM (fun k i => (sysClose i k).map Prod.snd) k).map (withRtc · r) := by
  induction l generalizing k with
  | nil => rfl
  | cons i l ih =>
    simp only [List.foldlM_cons, withRtc_sysClose, Option.map_map, Option.bind_eq_bind]
    cases k.sysClose i with
    | none => rfl
    | some p => exact ih p.2

/-- So do the closes `halt` makes. -/
theorem withRtc_closeAll : (k.withRtc r).closeAll = k.closeAll.map (withRtc · r) :=
  withRtc_foldlM_sysClose k r _

/-- `read` with the descriptor table `t` calls `rtc_read`. -/
def ReadsRtc (t : ℕ → Fd) (fd : ℤ) (buf : Word) : Prop :=
  0 ≤ fd ∧ fd ≤ maxFd ∧ buf ≠ 0 ∧ (t fd.toNat).flags ≠ 0 ∧ fd ≠ 1 ∧
    (t fd.toNat).tablePointer = some .rtc

instance decidableReadsRtc (t : ℕ → Fd) (fd : ℤ) (buf : Word) : Decidable (ReadsRtc t fd buf) :=
  inferInstanceAs (Decidable (_ ∧ _))

/-- `open` calls `rtc_open`. -/
def OpensRtc (img : Image) (filename : ℕ → Byte) : Prop :=
  ∃ fd dent, k.getAvailFd = some fd ∧ img.readDentryByName filename = some dent ∧
    ((k.setFileopPtr fd dent.type).curFd fd).tablePointer = some .rtc

theorem withRtc_getAvailFd : (k.withRtc r).getAvailFd = k.getAvailFd := by
  simp only [getAvailFd, withRtc_curFd]

theorem withRtc_setFileopPtr (fd : ℕ) (type : Word) :
    (k.withRtc r).setFileopPtr fd type = (k.setFileopPtr fd type).withRtc r := by
  simp only [setFileopPtr, withRtc_curFd, withRtc_setCurFd, apply_ite (withRtc · r)]

/-- Only the RTC's `open` changes its variables : it clears the flag. -/
theorem withRtc_opsOpen (ops : Fileops) (fd : ℕ) (inode : Word) :
    ∃ r', (r'.flagRtc ≠ 0 ↔ r.flagRtc ≠ 0 ∧ ops ≠ .rtc) ∧
      (k.withRtc r).opsOpen ops fd inode = (k.opsOpen ops fd inode).map id (withRtc · r') := by
  cases ops with
  | fileop =>
    refine ⟨r, by simp, ?_⟩
    simp only [opsOpen, fileOpen, openFd, apply_ite (Prod.map id (withRtc · r)), Prod.map_apply,
      id_eq, withRtc_setCurFd]
  | directory =>
    refine ⟨r, by simp, ?_⟩
    simp only [opsOpen, directoryOpen, openFd, apply_ite (Prod.map id (withRtc · r)),
      Prod.map_apply, id_eq, withRtc_setCurFd]
  | rtc =>
    obtain ⟨r', hflag, hrtc⟩ : ∃ r' : Rtc, r'.flagRtc = 0 ∧
        ((k.withRtc r).setRate maximumRate).rtcInit =
          (k.setRate maximumRate).rtcInit.withRtc r' := ⟨_, rfl, rfl⟩
    refine ⟨r', by simp [hflag], ?_⟩
    simp only [opsOpen, rtcOpen, openFd, Prod.map_apply, id_eq, hrtc, withRtc_setCurFd]
  | keyboard =>
    refine ⟨r, by simp, ?_⟩
    exact congrArg (Prod.mk 0) (withRtc_setCurFd (clearLines { k with keyboard :=
      { k.keyboard with counter1 := 0, counter2 := 0, counter3 := 0 } }) r fd
        ⟨some .keyboard, 0, 0, 1⟩)

/-- Only an open of the RTC's own entry changes it : `rtc_open` clears the flag. -/
theorem withRtc_sysOpen (img : Image) (filename : ℕ → Byte) :
    ∃ r', (r'.flagRtc ≠ 0 ↔ r.flagRtc ≠ 0 ∧ ¬k.OpensRtc img filename) ∧
      (k.withRtc r).sysOpen img filename =
        (k.sysOpen img filename).map (Prod.map id (withRtc · r')) := by
  unfold sysOpen OpensRtc
  rw [withRtc_getAvailFd]
  cases k.getAvailFd with
  | none => exact ⟨r, by simp, rfl⟩
  | some fd =>
    cases img.readDentryByName filename with
    | none => exact ⟨r, by simp, rfl⟩
    | some dent =>
      simp only [withRtc_setFileopPtr, withRtc_curFd]
      cases hops : ((k.setFileopPtr fd dent.type).curFd fd).tablePointer with
      | none => exact ⟨r, by simp [hops], rfl⟩
      | some ops =>
        obtain ⟨r', hflag, hopen⟩ :=
          (k.setFileopPtr fd dent.type).withRtc_opsOpen r ops fd dent.inode
        refine ⟨r', by simp [hops, hflag], ?_⟩
        rw [Option.map_some, Option.map_some, hopen]
        rfl

/-- The kernel a read leaves behind, with other values. -/
def ReadResult.withRtc (res : ReadResult) (r : Rtc) : ReadResult :=
  { res with kernel := res.kernel.withRtc r }

/-- Whether `keyboard_read` returns, and what, depends on the line buffers only. -/
theorem withRtc_keyboardRead (fd : ℕ) :
    (k.withRtc r).keyboardRead fd = (k.keyboardRead fd).map (ReadResult.withRtc · r) := by
  simp only [keyboardRead, withRtc_curFd, withRtc_proc, withRtc_cur, withRtc_screen,
    withRtc_keyboard, withRtc_setFlagKeyboard, apply_ite (Option.map (ReadResult.withRtc · r)),
    Option.map_some, Option.map_none, Option.map_map]
  rfl

theorem withRtc_fileRead (img : Image) (fd : ℕ) (nbytes : ℤ) :
    (k.withRtc r).fileRead img fd nbytes = (k.fileRead img fd nbytes).withRtc r := by
  simp only [fileRead, withRtc_curFd, withRtc_setCurFd, apply_ite (ReadResult.withRtc · r)]
  rfl

theorem withRtc_directoryRead (img : Image) (fd : ℕ) :
    (k.withRtc r).directoryRead img fd = (k.directoryRead img fd).withRtc r := by
  simp only [directoryRead, withRtc_curFd, withRtc_setCurFd, apply_ite (ReadResult.withRtc · r)]
  cases img.readDentryByIndex (k.curFd fd).filePosition <;> rfl

/-- Only the RTC's `read` changes its variables : the interrupt it waits for sets the flag. -/
theorem withRtc_opsRead (img : Image) (ops : Fileops) (fd : ℕ) (nbytes : ℤ) :
    ∃ r', (r'.flagRtc ≠ 0 ↔ ops = .rtc ∨ r.flagRtc ≠ 0) ∧
      (k.withRtc r).opsRead img ops fd nbytes =
        (k.opsRead img ops fd nbytes).map (ReadResult.withRtc · r') := by
  cases ops with
  | fileop => exact ⟨r, by simp, congrArg some (withRtc_fileRead k r img fd nbytes)⟩
  | directory => exact ⟨r, by simp, congrArg some (withRtc_directoryRead k r img fd)⟩
  | rtc => exact ⟨(k.withRtc r).rtcRead.kernel.rtc, by simp [rtcRead, interruptRtc], rfl⟩
  | keyboard => exact ⟨r, by simp, withRtc_keyboardRead k r fd⟩

/-- Of the reads, only `rtc_read` writes the flag : it is up when the read returns. -/
theorem withRtc_sysRead (img : Image) (fd : ℤ) (buf : Word) (nbytes : ℤ) :
    ∃ r', (r'.flagRtc ≠ 0 ↔ ReadsRtc k.curFd fd buf ∨ r.flagRtc ≠ 0) ∧
      (k.withRtc r).sysRead img fd buf nbytes =
        (k.sysRead img fd buf nbytes).map (ReadResult.withRtc · r') := by
  simp only [sysRead, withRtc_curFd, ReadsRtc]
  by_cases hfd : fd < 0 ∨ fd > maxFd
  · exact ⟨r, by omega, by rw [if_pos hfd, if_pos hfd]; rfl⟩
  by_cases hbuf : buf = 0
  · exact ⟨r, by simp [hbuf], by simp only [if_neg hfd, if_pos hbuf]; rfl⟩
  by_cases hf : (k.curFd fd.toNat).flags = 0
  · exact ⟨r, by simp [hf], by simp only [if_neg hfd, if_neg hbuf, if_pos hf]; rfl⟩
  by_cases h1 : fd = 1
  · exact ⟨r, by simp [h1], by simp only [if_neg hfd, if_neg hbuf, if_neg hf, if_pos h1]; rfl⟩
  simp only [if_neg hfd, if_neg hbuf, if_neg hf, if_neg h1]
  cases hops : (k.curFd fd.toNat).tablePointer with
  | none => exact ⟨r, by simp, rfl⟩
  | some ops =>
    obtain ⟨r', hflag, hread⟩ := k.withRtc_opsRead r img ops fd.toNat nbytes
    refine ⟨r', hflag.trans ?_, ?_⟩
    swap
    · rw [Option.bind_some, Option.bind_some, hread, Option.map_map, Option.map_map]
      rfl
    have hge : 0 ≤ fd ∧ fd ≤ maxFd := by omega
    simp [hbuf, hf, h1, hge]

/-- Only the RTC's `write` changes its variables, and not the flag. -/
theorem withRtc_opsWrite (ops : Fileops) (buf : ℕ → Byte) (nbytes : ℤ) :
    ∃ r', r'.flagRtc = r.flagRtc ∧
      (k.withRtc r).opsWrite ops buf nbytes =
        (k.opsWrite ops buf nbytes).map id (withRtc · r') := by
  cases ops with
  | fileop => exact ⟨r, rfl, rfl⟩
  | directory => exact ⟨r, rfl, rfl⟩
  | rtc =>
    refine ⟨((k.withRtc r).rtcWrite buf nbytes).2.rtc, ?_, ?_⟩
    · simp only [rtcWrite]
      split_ifs <;> rfl
    · simp only [opsWrite, rtcWrite]
      split_ifs <;> rfl
  | keyboard =>
    refine ⟨r, rfl, congrArg (Prod.mk _) ?_⟩
    exact foldl_withRtc (fun k i r => rtcFree_putc (buf i) k r) _ k r

/-- A write may set the rate, never the flag. -/
theorem withRtc_sysWrite (fd : ℤ) (buf : Option (ℕ → Byte)) (nbytes : ℤ) :
    ∃ r', r'.flagRtc = r.flagRtc ∧
      (k.withRtc r).sysWrite fd buf nbytes =
        (k.sysWrite fd buf nbytes).map (Prod.map id (withRtc · r')) := by
  simp only [sysWrite, withRtc_curFd]
  by_cases hfd : fd < 0 ∨ fd > maxFd
  · exact ⟨r, rfl, by rw [if_pos hfd, if_pos hfd]; rfl⟩
  simp only [if_neg hfd]
  cases buf with
  | none => exact ⟨r, rfl, rfl⟩
  | some buf =>
    simp only
    split_ifs with hf h0
    · exact ⟨r, rfl, rfl⟩
    · exact ⟨r, rfl, rfl⟩
    · cases (k.curFd fd.toNat).tablePointer with
      | none => exact ⟨r, rfl, rfl⟩
      | some ops =>
        obtain ⟨r', hflag, hwrite⟩ := k.withRtc_opsWrite r ops buf nbytes
        exact ⟨r', hflag, by rw [Option.map_some, Option.map_some, hwrite]; rfl⟩

/-! ## Processes -/

theorem rtcFree_initFd : RtcFree initFd := by
  intro k r
  simp only [initFd, withRtc_setCurFd]
  exact foldl_withRtc (fun k i r => withRtc_setCurFd k r i _) _ _ r

/-- `halt` restores the parent's context whatever the RTC holds. -/
theorem withRtc_halt (status : Byte) :
    (k.withRtc r).halt status = (k.halt status).map (Prod.map id (withRtc · r)) := by
  simp only [halt, withRtc_setInterruptFlag, withRtc_setRetStatus, withRtc_cur, withRtc_proc,
    withRtc_setEsp0, withRtc_modifyCur, withRtc_clearVid, withRtc_closeAll, Option.map_map]
  rfl

theorem withRtc_haltException :
    (k.withRtc r).haltException = k.haltException.map (Prod.map id (withRtc · r)) := by
  simp only [haltException, withRtc_setInterruptFlag, withRtc_cur, withRtc_proc, withRtc_setEsp0,
    withRtc_mapPageExec, withRtc_clearVid, withRtc_closeAll, Option.map_map]
  rfl

/-- `execute` builds the new process without the RTC. -/
theorem rtcFree_startProcess (command : CString) (idx : Word) :
    RtcFree (startProcess command idx) := by
  intro k r
  simp only [startProcess, withRtc_cur, withRtc_modifyPcb, withRtc_modifyCur, rtcFree_initFd _ r,
    withRtc_proc, withRtc_mapPageExec, withRtc_setEsp0]

theorem withRtc_execute (img : Image) (frame : ExecFrame) (command : CString) :
    (k.withRtc r).execute img frame command =
      (k.execute img frame command).map (Prod.map id (withRtc · r)) := by
  simp only [execute, withRtc_setInterruptFlag]
  by_cases hname : nameStores command.chars > fnameSize
  · rw [if_pos hname, if_pos hname]
    rfl
  rw [if_neg hname, if_neg hname]
  cases img.readDentryByName (commandName command) with
  | none => rfl
  | some dent =>
    have havail : ((k.setInterruptFlag false).withRtc r).getAvailPcb =
        (k.setInterruptFlag false).getAvailPcb := rfl
    simp only [havail, rtcFree_startProcess _ _ _ r, withRtc_loadProgram, withRtc_haltException,
      withRtc_saveFrame, withRtc_setInterruptFlag, withRtc_screen]
    cases (k.setInterruptFlag false).getAvailPcb with
    | none => split_ifs <;> rfl
    | some idx =>
      simp only [Option.map_map]
      split_ifs <;> first | rfl | (rw [Option.map_map]; rfl)

theorem withRtc_vidmap (screenStart : Word) :
    ((k.withRtc r).vidmap screenStart).2.2 = (k.vidmap screenStart).2.2.withRtc r := by
  unfold vidmap
  split_ifs <;> rfl

theorem rtcFree_contextSwitch (frame : SwitchFrame) : RtcFree (contextSwitch frame) := by
  intro k r
  unfold contextSwitch
  extract_lets next k₁ p₁ k₂ pid k₃ k₄ k₅ next' l₁ q₁ l₂ pid' l₃ l₄ l₅
  have h₂ : k₂ = l₂.withRtc r := rfl
  have hpid : pid = pid' := rfl
  clear_value pid pid'
  have h₃ : k₃ = l₃.withRtc r := by
    simp only [k₃, l₃, h₂, withRtc_screen, withRtc_proc, withRtc_mapScreenBuffer,
      apply_ite (withRtc · r)]
  have h₄ : k₄ = l₄.withRtc r := by
    simp only [k₄, l₄, h₃, withRtc_cur, withRtc_setEsp0]
  have hvid : (l₄.withRtc r).vidEntry = l₄.vidEntry := rfl
  have h₅ : k₅ = l₅.withRtc r := by
    simp only [k₅, l₅, h₄, hpid, hvid, withRtc_proc, withRtc_setPteVid, apply_ite (withRtc · r)]
  simp only [h₅, withRtc_cur, withRtc_mapPageExec, apply_ite (withRtc · r)]

/-- The PIT's interrupt switches terminals without the RTC. -/
theorem rtcFree_interruptPit (frame : SwitchFrame) : RtcFree (interruptPit frame) := by
  intro k r
  simp only [interruptPit, rtcFree_contextSwitch frame k r, withRtc_cur, withRtc_setInterruptFlag]

end Kernel

namespace Machine

variable {img : Image} {m m' : Machine}

/-- The machine with other values of the RTC's variables. -/
def withRtc (m : Machine) (r : Rtc) : Machine :=
  m.withKernel (m.kernel.withRtc r)

@[simp] theorem withRtc_running (r : Rtc) : (m.withRtc r).running = m.running :=
  rfl

/-- The event is a whole call of `rtc_read`. -/
def ReadsRtc (m : Machine) : Event → Prop
  | .read fd buf _ => Kernel.ReadsRtc m.kernel.curFd fd buf
  | _ => False

instance decidableReadsRtc (m : Machine) (e : Event) : Decidable (m.ReadsRtc e) :=
  match e with
  | .read fd buf _ => Kernel.decidableReadsRtc m.kernel.curFd fd buf
  | .execute _ _ | .halt _ | .haltException | .open _ | .close _ | .write _ _ _ | .vidmap _
  | .contextSwitch _ | .interruptKeyboard _ | .interruptRtc | .switchVid _ => .isFalse id

/-- The events that set the flag : the interrupt, and a whole call of `rtc_read`. -/
def RaisesRtc (m : Machine) (e : Event) : Prop :=
  e = .interruptRtc ∨ m.ReadsRtc e

/-- The event that clears the flag : `rtc_open`. -/
def LowersRtc (img : Image) (m : Machine) : Event → Prop
  | .open filename => m.kernel.OpensRtc img filename.mem
  | _ => False

/-- A call of a process lifts from the kernel to the machine. -/
theorem withRtc_userCall {r r' : Rtc} {x y : Option Kernel} (h : x = y.map (Kernel.withRtc · r')) :
    (m.withRtc r).userCall x = (m.userCall y).map (withRtc · r') := by
  rw [userCall, userCall, withRtc_running, h]
  split_ifs
  · rfl
  · rw [Option.map_map, Option.map_map]
    rfl

theorem withRtc_withKernel {r r' : Rtc} {k k' : Kernel} (h : k' = k.withRtc r') :
    some ((m.withRtc r).withKernel k') = (some (m.withKernel k)).map (withRtc · r') := by
  rw [h]
  rfl

theorem withRtc_exit {r : Rtc} {x y : Option (Kernel.Frame × Kernel)}
    (h : x = y.map (Prod.map id (Kernel.withRtc · r))) :
    (m.withRtc r).exit x = (m.exit y).map (withRtc · r) := by
  rw [exit, exit, withRtc_running, h]
  split_ifs
  · rfl
  · cases y with
    | none => rfl
    | some p =>
      simp only [Option.map_some, Option.bind_some, resume, Prod.map_fst, id_eq]
      have hstack : (m.withRtc r).stack = m.stack := rfl
      rw [hstack]
      cases m.stack.dropWhile fun c => decide (c.frame ≠ p.1) <;> rfl

theorem withRtc_execute (r : Rtc) (frame : Kernel.ExecFrame) (command : CString) :
    (m.withRtc r).execute img frame command = (m.execute img frame command).map (withRtc · r) := by
  have h : (m.withRtc r).kernel.execute img frame command =
      (m.kernel.execute img frame command).map (Prod.map id (Kernel.withRtc · r)) :=
    m.kernel.withRtc_execute r img frame command
  rw [execute, execute, h, withRtc_running]
  cases m.kernel.execute img frame command with
  | none => rfl
  | some p =>
    obtain ⟨res, k⟩ := p
    cases res with
    | iret pid target => rfl
    | fault frame => rfl
    | fail =>
      simp only [Option.map_some, Prod.map_apply, id_eq]
      split_ifs <;> rfl

/-- A step does the same to the rest of the machine whatever the RTC's variables hold, and sets
the flag, clears it or leaves it as it is. -/
theorem step_withRtc (m : Machine) (r : Rtc) (e : Event) :
    ∃ r', (r'.flagRtc ≠ 0 ↔ m.RaisesRtc e ∨ r.flagRtc ≠ 0 ∧ ¬m.LowersRtc img e) ∧
      (m.withRtc r).step img e = (m.step img e).map (withRtc · r') := by
  cases e with
  | execute frame command =>
    exact ⟨r, by simp [RaisesRtc, ReadsRtc, LowersRtc], withRtc_execute r frame command⟩
  | halt status =>
    exact ⟨r, by simp [RaisesRtc, ReadsRtc, LowersRtc],
      withRtc_exit (m.kernel.withRtc_halt r status)⟩
  | haltException =>
    exact ⟨r, by simp [RaisesRtc, ReadsRtc, LowersRtc],
      withRtc_exit (m.kernel.withRtc_haltException r)⟩
  | «open» filename =>
    obtain ⟨r', hflag, h⟩ := m.kernel.withRtc_sysOpen r img filename.mem
    refine ⟨r', by simpa [RaisesRtc, ReadsRtc, LowersRtc] using hflag, withRtc_userCall ?_⟩
    rw [show (m.withRtc r).kernel.sysOpen img filename.mem = _ from h, Option.map_map,
      Option.map_map]
    rfl
  | close fd =>
    refine ⟨r, by simp [RaisesRtc, ReadsRtc, LowersRtc], withRtc_userCall ?_⟩
    rw [show (m.withRtc r).kernel.sysClose fd = _ from m.kernel.withRtc_sysClose r fd,
      Option.map_map, Option.map_map]
    rfl
  | read fd buf nbytes =>
    obtain ⟨r', hflag, h⟩ := m.kernel.withRtc_sysRead r img fd buf nbytes
    refine ⟨r', by simpa [RaisesRtc, ReadsRtc, LowersRtc] using hflag, withRtc_userCall ?_⟩
    rw [show (m.withRtc r).kernel.sysRead img fd buf nbytes = _ from h, Option.map_map,
      Option.map_map]
    rfl
  | write fd buf nbytes =>
    obtain ⟨r', hflag, h⟩ := m.kernel.withRtc_sysWrite r fd buf nbytes
    refine ⟨r', by simp [RaisesRtc, ReadsRtc, LowersRtc, hflag], withRtc_userCall ?_⟩
    rw [show (m.withRtc r).kernel.sysWrite fd buf nbytes = _ from h, Option.map_map,
      Option.map_map]
    rfl
  | vidmap screenStart =>
    exact ⟨r, by simp [RaisesRtc, ReadsRtc, LowersRtc],
      withRtc_userCall (congrArg some (m.kernel.withRtc_vidmap r screenStart))⟩
  | contextSwitch frame =>
    exact ⟨r, by simp [RaisesRtc, ReadsRtc, LowersRtc],
      withRtc_withKernel (Kernel.rtcFree_interruptPit frame m.kernel r)⟩
  | interruptKeyboard code =>
    exact ⟨r, by simp [RaisesRtc, ReadsRtc, LowersRtc],
      withRtc_withKernel (Kernel.rtcFree_interruptKeyboard code m.kernel r)⟩
  | interruptRtc =>
    exact ⟨(m.withRtc r).kernel.interruptRtc.rtc,
      by simp [RaisesRtc, Kernel.interruptRtc], rfl⟩
  | switchVid target =>
    exact ⟨r, by simp [RaisesRtc, ReadsRtc, LowersRtc],
      withRtc_withKernel (Kernel.rtcFree_switchVid target m.kernel r)⟩

/-- `flag_rtc` is set. -/
def FlagRtc (m : Machine) : Prop :=
  m.kernel.rtc.flagRtc ≠ 0

/-- After a step the flag is up when the step raised it, or it was up and the step is not
one that clears it. -/
theorem flagRtc_step {e : Event} (hstep : m.step img e = some m') :
    m'.FlagRtc ↔ m.RaisesRtc e ∨ m.FlagRtc ∧ ¬m.LowersRtc img e := by
  obtain ⟨r', hflag, h⟩ := @step_withRtc img m m.kernel.rtc e
  have hself : m.withRtc m.kernel.rtc = m := rfl
  rw [hself, hstep, Option.map_some] at h
  rw [FlagRtc, Option.some.inj h]
  exact hflag

end Machine

end MpOS
