import MpOS.Machine

/-!
# What each operation leaves alone

The output routines change physical memory and the cursors. The key handler also
changes the decoder, the line buffers and, through `switch_vid`, the user video
entry. The descriptor calls change descriptor tables. None of them touches the
context of a process : the process array, the links of the PCBs, the saved
kernel stacks and the program page (`SameContext`).
-/

namespace MpOS

/-- The part of a PCB that `execute` and the exits use. -/
structure PcbLink where
  use : Word
  parentPid : Word
  parentEsp0 : Word
  parentEsp : Word
  parentEbp : Word
  parentFd : FdPtr
  screenIdx : Word

/-- The links of a PCB. -/
def Pcb.link (p : Pcb) : PcbLink :=
  ⟨p.use, p.parentPid, p.parentEsp0, p.parentEsp, p.parentEbp, p.parentFd, p.screenIdx⟩

namespace Kernel

/-- The contexts of all processes are unchanged. -/
structure SameContext (k k' : Kernel) : Prop where
  scheduleIndex : k'.proc.scheduleIndex = k.proc.scheduleIndex
  processArray : k'.proc.processArray = k.proc.processArray
  tssEsp0 : k'.proc.tssEsp0 = k.proc.tssEsp0
  retStatus : k'.proc.retStatus = k.proc.retStatus
  pdt : k'.paging.pdt exec = k.paging.pdt exec
  link : ∀ pid, (k'.proc.pcb pid).link = (k.proc.pcb pid).link

namespace SameContext

variable {k k' k'' : Kernel}

theorem refl (k : Kernel) : SameContext k k :=
  ⟨rfl, rfl, rfl, rfl, rfl, fun _ => rfl⟩

theorem trans (h : SameContext k k') (h' : SameContext k' k'') : SameContext k k'' where
  scheduleIndex := h'.scheduleIndex.trans h.scheduleIndex
  processArray := h'.processArray.trans h.processArray
  tssEsp0 := h'.tssEsp0.trans h.tssEsp0
  retStatus := h'.retStatus.trans h.retStatus
  pdt := h'.pdt.trans h.pdt
  link pid := (h'.link pid).trans (h.link pid)

/-- Operations that leave `proc` and the page directory alone. -/
theorem of_eq (hp : k'.proc = k.proc) (hd : k'.paging.pdt = k.paging.pdt) : SameContext k k' := by
  constructor <;> simp [hp, hd]

/-- The terminal that runs keeps its entry of the process array. -/
theorem cur (h : SameContext k k') : k'.cur = k.cur := by
  rw [Kernel.cur, Kernel.cur, h.processArray, h.scheduleIndex]

end SameContext

/-! ## Output -/

/-- The kernel with other screen contents and cursors, the same terminal visible. -/
structure OnlyScreen (k k' : Kernel) : Prop where
  proc : k'.proc = k.proc
  paging : k'.paging = k.paging
  keyboard : k'.keyboard = k.keyboard
  visibleScreen : k'.screen.visibleScreen = k.screen.visibleScreen

namespace OnlyScreen

theorem refl (k : Kernel) : OnlyScreen k k :=
  ⟨rfl, rfl, rfl, rfl⟩

theorem trans {k k' k'' : Kernel} (h : OnlyScreen k k') (h' : OnlyScreen k' k'') :
    OnlyScreen k k'' :=
  ⟨h'.proc.trans h.proc, h'.paging.trans h.paging, h'.keyboard.trans h.keyboard,
    h'.visibleScreen.trans h.visibleScreen⟩

theorem foldl {α : Type*} {f : Kernel → α → Kernel} (hf : ∀ k a, OnlyScreen k (f k a)) :
    ∀ (l : List α) (k : Kernel), OnlyScreen k (l.foldl f k)
  | [], k => refl k
  | a :: l, k => (hf k a).trans (foldl hf l (f k a))

end OnlyScreen

theorem onlyScreen_store (k : Kernel) (a : ℕ) (b : Byte) : OnlyScreen k (k.store a b) :=
  ⟨rfl, rfl, rfl, rfl⟩

theorem onlyScreen_setCursor (k : Kernel) (t : Terminal) (x y : ℕ) :
    OnlyScreen k (k.setCursor t x y) :=
  ⟨rfl, rfl, rfl, rfl⟩

theorem onlyScreen_storeCell (k : Kernel) (base n : ℕ) (c : Byte) :
    OnlyScreen k (k.storeCell base n c) :=
  (onlyScreen_store _ _ _).trans (onlyScreen_store _ _ _)

theorem onlyScreen_scrollCell (k : Kernel) (dest src n : ℕ) :
    OnlyScreen k (k.scrollCell dest src n) :=
  (onlyScreen_store _ _ _).trans (onlyScreen_store _ _ _)

/-- A scroll moves cells of one page and nothing else. -/
theorem onlyScreen_scrollPage (k : Kernel) (dest src : ℕ) :
    OnlyScreen k (k.scrollPage dest src) :=
  (OnlyScreen.foldl (fun k _ => .foldl (fun k _ => onlyScreen_scrollCell k _ _ _) _ k) _ k).trans
    (.foldl (fun k _ => onlyScreen_storeCell k _ _ _) _ _)

/-- The wrap at the right edge, with any scroll that keeps to the screen. -/
theorem onlyScreen_wrapCursor {t : Terminal} {scroll : Kernel → Kernel}
    (hs : ∀ k, OnlyScreen k (scroll k)) (k : Kernel) : OnlyScreen k (k.wrapCursor t scroll) := by
  unfold wrapCursor
  split_ifs
  · exact ((hs k).trans (onlyScreen_setCursor _ _ _ _)).trans (onlyScreen_setCursor _ _ _ _)
  · exact onlyScreen_setCursor _ _ _ _

/-- `putc` and its keyboard twin differ in their page and their scroll only. -/
theorem onlyScreen_putChar {t : Terminal} {mem : ℕ} {scroll : Kernel → Kernel}
    (hs : ∀ k, OnlyScreen k (scroll k)) (c : Byte) (k : Kernel) :
    OnlyScreen k (k.putChar t mem scroll c) := by
  unfold putChar
  split_ifs
  · exact .refl k
  · exact (onlyScreen_setCursor _ _ _ _).trans (onlyScreen_wrapCursor hs _)
  · exact ((onlyScreen_storeCell _ _ _ _).trans (onlyScreen_setCursor _ _ _ _)).trans
      (onlyScreen_wrapCursor hs _)

theorem onlyScreen_putc (c : Byte) (k : Kernel) : OnlyScreen k (k.putc c) :=
  onlyScreen_putChar (fun k => onlyScreen_scrollPage k _ _) c k

theorem onlyScreen_putcKeyboard (c : Byte) (k : Kernel) : OnlyScreen k (k.putcKeyboard c) :=
  onlyScreen_putChar (fun k => onlyScreen_scrollPage k _ _) c k

theorem onlyScreen_keyClearScreen (k : Kernel) : OnlyScreen k k.keyClearScreen :=
  (OnlyScreen.foldl (fun k _ => .foldl (fun k _ => onlyScreen_storeCell k _ _ _) _ k) _ k).trans
    (onlyScreen_setCursor _ _ _ _)

/-- `deletechar` moves the cursor back and blanks the cell there. -/
theorem onlyScreen_deleteChar (k : Kernel) : OnlyScreen k k.deleteChar := by
  simp only [deleteChar]
  split_ifs
  · exact .refl k
  · exact .refl k
  · exact ((onlyScreen_store _ _ _).trans (onlyScreen_store _ _ _)).trans
      (onlyScreen_setCursor _ _ _ _)
  · exact ((onlyScreen_store _ _ _).trans (onlyScreen_store _ _ _)).trans
      (onlyScreen_setCursor _ _ _ _)

/-! ## The keyboard handler -/

/-- Only the contents of the screens, the cursors, the keyboard and the RTC may have changed. -/
structure OnlyDevices (k k' : Kernel) : Prop where
  proc : k'.proc = k.proc
  paging : k'.paging = k.paging
  visibleScreen : k'.screen.visibleScreen = k.screen.visibleScreen

namespace OnlyDevices

theorem refl (k : Kernel) : OnlyDevices k k :=
  ⟨rfl, rfl, rfl⟩

theorem trans {k k' k'' : Kernel} (h : OnlyDevices k k') (h' : OnlyDevices k' k'') :
    OnlyDevices k k'' :=
  ⟨h'.proc.trans h.proc, h'.paging.trans h.paging, h'.visibleScreen.trans h.visibleScreen⟩

end OnlyDevices

theorem OnlyScreen.onlyDevices {k k' : Kernel} (h : OnlyScreen k k') : OnlyDevices k k' :=
  ⟨h.proc, h.paging, h.visibleScreen⟩

theorem onlyDevices_setFlagKeyboard (k : Kernel) (t : Terminal) (n : ℕ) :
    OnlyDevices k (k.setFlagKeyboard t n) :=
  ⟨rfl, rfl, rfl⟩

theorem onlyDevices_deleteKey (k : Kernel) : OnlyDevices k k.deleteKey := by
  have h : OnlyDevices k k.deleteChar := (onlyScreen_deleteChar k).onlyDevices
  unfold deleteKey
  split_ifs
  · exact h.trans ⟨rfl, rfl, rfl⟩
  · exact h.trans ⟨rfl, rfl, rfl⟩
  · exact h.trans ⟨rfl, rfl, rfl⟩
  · exact .refl k

/-- A character goes to the line buffer of the visible screen and to the screen. -/
theorem onlyDevices_storeKey (scancode : Byte) (k : Kernel) :
    OnlyDevices k (k.storeKey scancode) := by
  have h : OnlyDevices k (k.putcKeyboard scancode) :=
    (onlyScreen_putcKeyboard scancode k).onlyDevices
  unfold storeKey
  split_ifs
  · exact h.trans ⟨rfl, rfl, rfl⟩
  · exact h.trans ⟨rfl, rfl, rfl⟩
  · exact h.trans ⟨rfl, rfl, rfl⟩
  · exact .refl k

/-- The part of a key event after `getchar`. -/
def finishKey (scancode : Byte) (k : Kernel) : Kernel :=
  let k := if scancode = 0 then k else k.storeKey scancode
  if scancode = 10 ∨ k.keyboard.counter1 ≥ termbufSize ∨ k.keyboard.counter2 ≥ termbufSize ∨
      k.keyboard.counter3 ≥ termbufSize then
    k.setFlagKeyboard k.screen.visibleScreen 1
  else k

/-- The handler is the decoder, and what is done with the code it yields. -/
theorem interruptKeyboard_eq (code : Byte) (k : Kernel) :
    k.interruptKeyboard code = (k.getchar code).2.finishKey (k.getchar code).1 :=
  rfl

/-- What the handler does with a code, after the decoder. -/
theorem onlyDevices_finishKey (scancode : Byte) (k : Kernel) :
    OnlyDevices k (k.finishKey scancode) := by
  simp only [finishKey]
  split_ifs
  · exact onlyDevices_setFlagKeyboard _ _ _
  · exact .refl k
  · exact (onlyDevices_storeKey _ _).trans (onlyDevices_setFlagKeyboard _ _ _)
  · exact onlyDevices_storeKey _ _

/-- A key event does what `switch_vid` does if it is Alt with a function key, and otherwise
changes devices only. -/
theorem onlyDevices_interruptKeyboard (code : Byte) (k : Kernel) :
    OnlyDevices ((k.altTarget code).elim k fun t => k.switchVid t) (k.interruptKeyboard code) := by
  rw [interruptKeyboard_eq]
  refine OnlyDevices.trans ?_ (onlyDevices_finishKey _ _)
  show OnlyDevices _ (k.getScancode code).2
  have h := k.getScancode_cases code
  generalize k.getScancode code = r at h ⊢
  cases h with
  | switchVid t _ ht =>
    rw [ht]
    exact .refl _
  | decoder _ _ _ _ hn =>
    rw [hn]
    exact ⟨rfl, rfl, rfl⟩
  | clear _ hn =>
    rw [hn]
    exact (onlyScreen_keyClearScreen k).onlyDevices
  | delete _ hn =>
    rw [hn]
    exact onlyDevices_deleteKey k
  | key _ hn =>
    rw [hn]
    exact .refl k
  | ignored _ hn =>
    rw [hn]
    exact .refl k

/-- `proc` and the page directory are as before. -/
structure SameProc (k k' : Kernel) : Prop where
  proc : k'.proc = k.proc
  pdt : k'.paging.pdt = k.paging.pdt

/-- A context is in `proc` and the page directory. -/
theorem SameProc.sameContext {k k' : Kernel} (h : SameProc k k') : SameContext k k' :=
  .of_eq h.proc h.pdt

/-- A screen switch remaps the user video page, not the program page. -/
theorem sameProc_switchVid (target : Terminal) (k : Kernel) : SameProc k (k.switchVid target) := by
  unfold switchVid
  split_ifs <;> exact ⟨rfl, rfl⟩

/-- No key press, the switching ones included, changes a context. -/
theorem sameProc_interruptKeyboard (code : Byte) (k : Kernel) :
    SameProc k (k.interruptKeyboard code) := by
  have h := onlyDevices_interruptKeyboard code k
  cases ht : k.altTarget code with
  | none =>
    rw [ht] at h
    exact ⟨h.proc, congrArg Paging.pdt h.paging⟩
  | some t =>
    rw [ht] at h
    have hs := sameProc_switchVid t k
    exact ⟨h.proc.trans hs.proc, (congrArg Paging.pdt h.paging).trans hs.pdt⟩

/-! ## Descriptor calls -/

/-- Only the current descriptor table, the contents of the screens, the line buffers and
the RTC may have changed. -/
structure OnlyFds (k k' : Kernel) : Prop where
  context : SameContext k k'
  paging : k'.paging = k.paging
  visibleScreen : k'.screen.visibleScreen = k.screen.visibleScreen
  vidSet : ∀ pid, (k'.proc.pcb pid).vidSet = (k.proc.pcb pid).vidSet
  fds : ∀ ptr, ptr ≠ k.cur.curFdPtr → k'.fds ptr = k.fds ptr

namespace OnlyFds

variable {k k' k'' : Kernel}

theorem refl (k : Kernel) : OnlyFds k k :=
  ⟨.refl k, rfl, rfl, fun _ => rfl, fun _ _ => rfl⟩

theorem trans (h : OnlyFds k k') (h' : OnlyFds k' k'') : OnlyFds k k'' where
  context := h.context.trans h'.context
  paging := h'.paging.trans h.paging
  visibleScreen := h'.visibleScreen.trans h.visibleScreen
  vidSet pid := (h'.vidSet pid).trans (h.vidSet pid)
  fds ptr hne := (h'.fds ptr (h.context.cur ▸ hne)).trans (h.fds ptr hne)

/-- Operations that leave `proc`, `paging` and the visible terminal alone. -/
theorem of_eq (hp : k'.proc = k.proc) (hg : k'.paging = k.paging)
    (hv : k'.screen.visibleScreen = k.screen.visibleScreen) : OnlyFds k k' where
  context := .of_eq hp (by rw [hg])
  paging := hg
  visibleScreen := hv
  vidSet pid := by rw [hp]
  fds ptr _ := by cases ptr <;> simp only [Kernel.fds, hp]

end OnlyFds

theorem OnlyDevices.onlyFds {k k' : Kernel} (h : OnlyDevices k k') : OnlyFds k k' :=
  .of_eq h.proc h.paging h.visibleScreen

/-- What an update of one PCB leaves alone in that PCB it leaves alone in all. -/
theorem update_pcb {β : Type*} (g : Pcb → β) {pcb : Word → Pcb} {pid : Word} {p : Pcb}
    (hp : g p = g (pcb pid)) (q : Word) : g (Function.update pcb pid p q) = g (pcb q) := by
  rcases eq_or_ne q pid with rfl | hne
  · rw [Function.update_self, hp]
  · rw [Function.update_of_ne hne]

theorem onlyFds_setCurFd (k : Kernel) (fd : ℕ) (e : Fd) : OnlyFds k (k.setCurFd fd e) := by
  unfold setCurFd setFd
  split
  · exact .refl k
  · rename_i hc
    refine ⟨⟨rfl, rfl, rfl, rfl, rfl, fun _ => rfl⟩, rfl, rfl, fun _ => rfl, fun ptr hne => ?_⟩
    cases ptr with
    | kernelFdt => exact absurd hc.symm hne
    | null => rfl
    | fdTable pid => rfl
  · rename_i pid hc
    refine ⟨⟨rfl, rfl, rfl, rfl, rfl, update_pcb Pcb.link rfl⟩, rfl, rfl,
      update_pcb Pcb.vidSet rfl, fun ptr hne => ?_⟩
    cases ptr with
    | null => rfl
    | kernelFdt => rfl
    | fdTable pid' =>
      have hne' : pid' ≠ pid := fun h => hne (h ▸ hc.symm)
      simp only [fds, modifyPcb, Function.update_of_ne hne']

/-- What the descriptor calls are made of : stores in the current descriptor table, and changes
that leave `proc`, `paging` and the visible terminal alone. -/
inductive FdSteps (k : Kernel) : Kernel → Prop
  | refl : FdSteps k k
  | set {k' : Kernel} (h : FdSteps k k') (fd : ℕ) (e : Fd) : FdSteps k (k'.setCurFd fd e)
  | other {k' k'' : Kernel} (h : FdSteps k k') (hp : k''.proc = k'.proc)
      (hg : k''.paging = k'.paging)
      (hv : k''.screen.visibleScreen = k'.screen.visibleScreen) : FdSteps k k''

namespace FdSteps

variable {k k' k'' : Kernel}

/-- Steps of two calls are steps of one. -/
theorem trans (h : FdSteps k k') (h' : FdSteps k' k'') : FdSteps k k'' := by
  induction h' with
  | refl => exact h
  | set _ fd e ih => exact ih.set fd e
  | other _ hp hg hv ih => exact ih.other hp hg hv

/-- Such steps change devices and the caller's descriptors, and nothing else. -/
theorem onlyFds (h : FdSteps k k') : OnlyFds k k' := by
  induction h with
  | refl => exact .refl k
  | set _ fd e ih => exact ih.trans (onlyFds_setCurFd _ fd e)
  | other _ hp hg hv ih => exact ih.trans (.of_eq hp hg hv)

end FdSteps

/-- The drivers' common close : one descriptor, if it is open. -/
theorem fdSteps_closeFd (inode : Word) (fd : ℕ) (k : Kernel) :
    FdSteps k (k.closeFd inode fd).2 := by
  unfold closeFd
  split_ifs
  · exact .refl
  · exact .set .refl _ _

theorem fdSteps_opsOpen (ops : Fileops) (fd : ℕ) (inode : Word) (k : Kernel) :
    FdSteps k (k.opsOpen ops fd inode).2 := by
  cases ops with
  | fileop =>
    simp only [opsOpen, fileOpen]
    split_ifs
    · exact .refl
    · exact .set .refl _ _
  | directory =>
    simp only [opsOpen, directoryOpen]
    split_ifs
    · exact .refl
    · exact .set .refl _ _
  | rtc =>
    have h : FdSteps k (k.setRate maximumRate).rtcInit := .other .refl rfl rfl rfl
    exact h.set _ _
  | keyboard =>
    have h : FdSteps k { k with keyboard := { k.keyboard with
      counter1 := 0, counter2 := 0, counter3 := 0 } }.clearLines := .other .refl rfl rfl rfl
    exact h.set _ _

theorem fdSteps_opsClose (ops : Fileops) (fd : ℕ) (k : Kernel) :
    FdSteps k (k.opsClose ops fd).2 := by
  cases ops with
  | fileop => exact fdSteps_closeFd _ _ _
  | directory => exact fdSteps_closeFd _ _ _
  | rtc => exact fdSteps_closeFd _ _ _
  | keyboard =>
    have h : FdSteps k k.clearLines := .other .refl rfl rfl rfl
    simp only [opsClose, keyboardClose]
    split_ifs
    · exact .refl
    · exact h.set _ _

theorem fdSteps_keyboardRead {fd : ℕ} {k : Kernel} {r : ReadResult}
    (h : k.keyboardRead fd = some r) : FdSteps k r.kernel := by
  simp only [keyboardRead] at h
  split_ifs at h
  · obtain rfl := Option.some.inj h
    exact .refl
  all_goals
    obtain ⟨n, -, rfl⟩ := Option.map_eq_some_iff.1 h
    exact .other .refl rfl rfl rfl

/-- A driver's read changes devices and the position in its own descriptor. -/
theorem fdSteps_opsRead {img : Image} {ops : Fileops} {fd : ℕ} {nbytes : ℤ} {k : Kernel}
    {r : ReadResult} (h : k.opsRead img ops fd nbytes = some r) : FdSteps k r.kernel := by
  cases ops with
  | fileop =>
    obtain rfl := Option.some.inj h
    simp only [fileRead]
    split_ifs
    · exact .refl
    · exact .set .refl _ _
  | directory =>
    obtain rfl := Option.some.inj h
    simp only [directoryRead]
    split_ifs
    · exact .refl
    · split
      · exact .refl
      · exact .set .refl _ _
  | rtc =>
    obtain rfl := Option.some.inj h
    exact .other .refl rfl rfl rfl
  | keyboard => exact fdSteps_keyboardRead h

theorem onlyScreen_keyboardWrite (buf : ℕ → Byte) (nbytes : ℤ) (k : Kernel) :
    OnlyScreen k (k.keyboardWrite buf nbytes).2 :=
  .foldl (fun k i => onlyScreen_putc (buf i) k) _ k

theorem fdSteps_opsWrite (ops : Fileops) (buf : ℕ → Byte) (nbytes : ℤ) (k : Kernel) :
    FdSteps k (k.opsWrite ops buf nbytes).2 := by
  cases ops with
  | fileop => exact .refl
  | directory => exact .refl
  | rtc =>
    simp only [opsWrite, rtcWrite]
    split_ifs
    · exact .refl
    · exact .other .refl rfl rfl rfl
    · exact .other .refl rfl rfl rfl
  | keyboard =>
    have h := onlyScreen_keyboardWrite buf nbytes k
    exact .other .refl h.proc h.paging h.visibleScreen

theorem fdSteps_setFileopPtr (fd : ℕ) (type : Word) (k : Kernel) :
    FdSteps k (k.setFileopPtr fd type) := by
  unfold setFileopPtr
  split_ifs
  · exact .set .refl _ _
  · exact .set .refl _ _
  · exact .set .refl _ _
  · exact .refl

/-- `open` fills one free descriptor of the caller, by way of its driver. -/
theorem fdSteps_sysOpen {img : Image} {filename : ℕ → Byte} {k : Kernel} {r : ℤ × Kernel}
    (h : k.sysOpen img filename = some r) : FdSteps k r.2 := by
  unfold sysOpen at h
  split at h
  · obtain rfl := Option.some.inj h
    exact .refl
  · split at h
    · obtain rfl := Option.some.inj h
      exact .refl
    · obtain ⟨ops, -, rfl⟩ := Option.map_eq_some_iff.1 h
      exact (fdSteps_setFileopPtr _ _ k).trans (fdSteps_opsOpen _ _ _ _)

/-- `close` empties one descriptor of the caller, by way of its driver. -/
theorem fdSteps_sysClose {fd : ℤ} {k : Kernel} {r : ℤ × Kernel}
    (h : k.sysClose fd = some r) : FdSteps k r.2 := by
  unfold sysClose at h
  split_ifs at h
  · obtain rfl := Option.some.inj h
    exact .refl
  · obtain rfl := Option.some.inj h
    exact .refl
  · obtain ⟨ops, -, rfl⟩ := Option.map_eq_some_iff.1 h
    exact fdSteps_opsClose _ _ _

/-- `read` fails on its arguments, or goes through the entry's table. -/
theorem sysRead_cases {img : Image} {fd : ℤ} {buf : Word} {nbytes : ℤ} {k : Kernel}
    {r : ReadResult} (h : k.sysRead img fd buf nbytes = some r) :
    r = ⟨-1, [], k⟩ ∨ ∃ ops r', (fd ≠ 1 ∧ 0 ≤ fd ∧ fd ≤ 7) ∧
      ((k.curFd fd.toNat).tablePointer = some ops ∧ (k.curFd fd.toNat).flags ≠ 0) ∧
      k.opsRead img ops fd.toNat nbytes = some r' ∧ r = r'.storeAt buf := by
  unfold sysRead maxFd at h
  split_ifs at h with h₁ h₂ h₃ h₄
  · exact Or.inl (Option.some.inj h).symm
  · exact Or.inl (Option.some.inj h).symm
  · exact Or.inl (Option.some.inj h).symm
  · exact Or.inl (Option.some.inj h).symm
  · obtain ⟨r', hr, rfl⟩ := Option.map_eq_some_iff.1 h
    obtain ⟨ops, hops, hread⟩ := Option.bind_eq_some_iff.1 hr
    exact Or.inr ⟨ops, r', ⟨h₄, by omega, by omega⟩, ⟨hops, h₃⟩, hread, rfl⟩

/-- `write` fails on its arguments, or goes through the entry's table. -/
theorem sysWrite_cases {fd : ℤ} {buf : Option (ℕ → Byte)} {nbytes : ℤ} {k : Kernel}
    {r : ℤ × Kernel} (h : k.sysWrite fd buf nbytes = some r) :
    r = (-1, k) ∨ ∃ ops b, r = k.opsWrite ops b nbytes := by
  unfold sysWrite at h
  cases buf with
  | none =>
    left
    split_ifs at h <;> exact (Option.some.inj h).symm
  | some buf =>
    simp only at h
    split_ifs at h
    · exact Or.inl (Option.some.inj h).symm
    · exact Or.inl (Option.some.inj h).symm
    · exact Or.inl (Option.some.inj h).symm
    · obtain ⟨ops, -, rfl⟩ := Option.map_eq_some_iff.1 h
      exact Or.inr ⟨ops, buf, rfl⟩

/-- `read`, short of the bytes it stores, changes at most the caller's table. -/
theorem fdSteps_sysRead {img : Image} {fd : ℤ} {buf : Word} {nbytes : ℤ} {k : Kernel}
    {r : ReadResult} (h : k.sysRead img fd buf nbytes = some r) : FdSteps k r.kernel := by
  rcases sysRead_cases h with rfl | ⟨ops, r', -, -, hread, rfl⟩
  · exact .refl
  · exact .other (fdSteps_opsRead hread) rfl rfl rfl

/-- `write` changes at most the caller's table. -/
theorem fdSteps_sysWrite {fd : ℤ} {buf : Option (ℕ → Byte)} {nbytes : ℤ} {k : Kernel}
    {r : ℤ × Kernel} (h : k.sysWrite fd buf nbytes = some r) : FdSteps k r.2 := by
  rcases sysWrite_cases h with rfl | ⟨ops, buf, rfl⟩
  · exact .refl
  · exact fdSteps_opsWrite _ _ _ _

/-- Each close of the loop is such a step, so the loop is. -/
theorem fdSteps_foldlM_sysClose : ∀ (l : List ℤ) {k k' : Kernel},
    l.foldlM (fun k i => (k.sysClose i).map Prod.snd) k = some k' → FdSteps k k'
  | [], k, k', h => by
    obtain rfl := Option.some.inj h
    exact .refl
  | i :: l, k, k', h => by
    rw [List.foldlM_cons, Option.bind_eq_bind, Option.bind_eq_some_iff] at h
    obtain ⟨k₁, h₁, h⟩ := h
    obtain ⟨r, hr, rfl⟩ := Option.map_eq_some_iff.1 h₁
    exact (fdSteps_sysClose hr).trans (fdSteps_foldlM_sysClose l h)

theorem fdSteps_closeAll {k k' : Kernel} (h : k.closeAll = some k') : FdSteps k k' :=
  fdSteps_foldlM_sysClose _ h

theorem onlyFds_sysOpen {img : Image} {filename : ℕ → Byte} {k : Kernel} {r : ℤ × Kernel}
    (h : k.sysOpen img filename = some r) : OnlyFds k r.2 :=
  (fdSteps_sysOpen h).onlyFds

theorem onlyFds_sysClose {fd : ℤ} {k : Kernel} {r : ℤ × Kernel}
    (h : k.sysClose fd = some r) : OnlyFds k r.2 :=
  (fdSteps_sysClose h).onlyFds

theorem onlyFds_closeAll {k k' : Kernel} (h : k.closeAll = some k') : OnlyFds k k' :=
  (fdSteps_closeAll h).onlyFds

/-- `vidmap` marks the PCB and remaps the video page, not the program page. -/
theorem sameContext_vidmap (screenStart : Word) (k : Kernel) :
    SameContext k (k.vidmap screenStart).2.2 := by
  unfold vidmap
  split_ifs
  · exact .refl k
  · exact .refl k
  · exact ⟨rfl, rfl, rfl, rfl, by simp [mapVid, setPdt, exec, vid, modifyPcb, setPteVid],
      update_pcb Pcb.link rfl⟩

/-- `process_init` leaves alone what no PCB holds. -/
theorem processInit_frame {β : Type*} (f : Kernel → β)
    (hf : ∀ (k : Kernel) (pid : Word) (g : Pcb → Pcb), f (k.modifyPcb pid g) = f k) (k : Kernel) :
    f k.processInit = f k := by
  simp only [processInit, List.foldl_cons, List.foldl_nil, hf]

end Kernel

end MpOS
