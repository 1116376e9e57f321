import MpOS.DescriptorTable

/-!
# The user video page

`pte_vid[0]` stands for the video mapping of whichever process runs. Five routines
write it, or should : `vidmap` and the exits without a look at the owner's terminal,
`switch_vid` without a look at `vid_set`, `execute` not at all, and
`context_switch`, which looks at both. `VideoFollows` says that the page follows its
owner, and `videoFollows_step` when one step keeps it so.
-/

namespace MpOS

/-- The present bit of a page table entry. -/
def present (e : Word) : Prop :=
  e &&& 1 ≠ 0

instance (e : Word) : Decidable (present e) :=
  inferInstanceAs (Decidable (_ ≠ _))

/-- The physical page a page table entry maps. -/
def pageOf (e : Word) : ℕ :=
  e.toNat / 4096 * 4096

/-- The page a terminal's characters belong to : the text page if it is visible, else its
backing page. -/
def Kernel.screenPage (k : Kernel) (t : Terminal) : ℕ :=
  if t = k.screen.visibleScreen then 0xB8000 else 0xB9000 + 0x1000 * t

namespace Machine

/-- The user video page is present exactly for a process that called `vidmap`, and then maps
the page of the process's terminal. -/
def VideoFollows (m : Machine) : Prop :=
  ∀ p, m.running = some p →
    (present (m.kernel.paging.pteVid 0) ↔ (m.kernel.proc.pcb p).vidSet = 1) ∧
    (present (m.kernel.paging.pteVid 0) →
      pageOf (m.kernel.paging.pteVid 0) = m.kernel.screenPage m.terminal)

/-- Switching to a terminal keeps the user video page right if the terminal is visible already,
or the running process has called `vidmap`. -/
def SwitchOk (m : Machine) (target : Terminal) : Prop :=
  target = m.kernel.screen.visibleScreen ∨
    ∀ p, m.running = some p → (m.kernel.proc.pcb p).vidSet = 1

/-- When a step keeps the user video page right : a process starts while the page is absent, an
exit returns to a parent without a mapping, Alt with a function key reaches a process with
one, and `vidmap` is called on the visible terminal. -/
def VideoOk (img : Image) (m : Machine) (e : Event) : Prop :=
  match e with
  | .execute frame command =>
    Kernel.Executable img frame command → m.kernel.getAvailPcb ≠ none →
      ¬present (m.kernel.paging.pteVid 0)
  | .halt _ | .haltException =>
    (m.kernel.proc.pcb m.kernel.cur.curPid).parentPid = noPid ∨
      (m.kernel.proc.pcb (m.kernel.proc.pcb m.kernel.cur.curPid).parentPid).vidSet = 0
  | .switchVid target => m.SwitchOk target
  | .interruptKeyboard code => ∀ target, m.kernel.altTarget code = some target → m.SwitchOk target
  | .vidmap screenStart =>
    screenStart ≥ 0x800000 → m.terminal = m.kernel.screen.visibleScreen
  | _ => True

end Machine

namespace Kernel

/-- `switch_vid` and `context_switch` map the page of the scheduled terminal. -/
theorem vidEntry_spec (k : Kernel) :
    present k.vidEntry ∧ pageOf k.vidEntry = k.screenPage k.proc.scheduleIndex := by
  have h : ∀ v t : Terminal,
      present (if v ≠ t then (pageKb + (videoOffset + fourKb * (t.word + 1))) ||| 5
        else (pageKb + videoOffset) ||| 5) ∧
      pageOf (if v ≠ t then (pageKb + (videoOffset + fourKb * (t.word + 1))) ||| 5
        else (pageKb + videoOffset) ||| 5) =
          if t = v then 0xB8000 else 0xB9000 + 0x1000 * (t : ℕ) := by
    decide
  exact h _ _

theorem switchVid_self (k : Kernel) : k.switchVid k.screen.visibleScreen = k := by
  rw [switchVid, if_pos rfl, ite_self]

/-- `switch_vid` to another terminal. -/
theorem switchVid_of_ne {k : Kernel} {target : Terminal} (h : target ≠ k.screen.visibleScreen) :
    (k.switchVid target).screen.visibleScreen = target ∧
      (k.switchVid target).paging.pteVid 0 = (k.switchVid target).vidEntry := by
  have hr : ¬((target : ℤ) < -1 ∨ (target : ℤ) > 2) := by omega
  simp only [switchVid, if_neg hr, if_neg h]
  refine ⟨rfl, ?_⟩
  simp [setPteVid, vidEntry]

theorem contextSwitch_pteVid (frame : SwitchFrame) (k : Kernel) :
    (k.contextSwitch frame).paging.pteVid 0 =
      if (if k.next.curPid = noPid then frame.stackWord else (k.proc.pcb k.next.curPid).vidSet) ≠ 0
      then (k.contextSwitch frame).vidEntry else 0 := by
  have hne := next_terminal_ne k.proc.scheduleIndex
  have hvid : (k.contextSwitch frame).vidEntry =
      ({ k with proc := { k.proc with
        scheduleIndex := k.proc.scheduleIndex + 1 } } : Kernel).vidEntry := by
    simp only [vidEntry, contextSwitch_screen, contextSwitch_proc]
  rw [hvid]
  simp only [contextSwitch, next_terminal, setEsp0, modifyCur, cur, next,
    Function.update_of_ne hne, mapScreenBuffer_proc, apply_ite Kernel.proc, setPteVid_proc,
    ite_self]
  by_cases hp : (k.proc.processArray (k.proc.scheduleIndex + 1)).curPid = noPid
  · by_cases hw : frame.stackWord = 0
    · simp [hp, hw, setPteVid]
    · by_cases hv : k.screen.visibleScreen = k.proc.scheduleIndex + 1 <;>
        simp [hp, hw, hv, setPteVid, vidEntry]
  · by_cases hw : (k.proc.pcb (k.proc.processArray (k.proc.scheduleIndex + 1)).curPid).vidSet = 0
    · simp [hp, hw, setPteVid]
    · by_cases hv : k.screen.visibleScreen = k.proc.scheduleIndex + 1 <;>
        simp [hp, hw, hv, setPteVid, vidEntry]

/-- `vidmap` fails below user memory, and otherwise maps the text page. -/
theorem vidmap_of_lt {screenStart : Word} (h : screenStart < 0x800000) (k : Kernel) :
    (k.vidmap screenStart).2.2 = k := by
  unfold vidmap
  split_ifs
  · rfl
  · rfl

theorem vidmap_of_le {screenStart : Word} (h : ¬screenStart < 0x800000) (k : Kernel) :
    (k.vidmap screenStart).2.2.paging.pteVid 0 = (pageKb + videoOffset) ||| 5 ∧
      (k.vidmap screenStart).2.2.screen = k.screen ∧
      ∀ pid, ((k.vidmap screenStart).2.2.proc.pcb pid).vidSet =
        if pid = k.cur.curPid then 1 else (k.proc.pcb pid).vidSet := by
  have h0 : screenStart ≠ 0 := by
    rintro rfl
    exact h (by decide)
  rw [vidmap, if_neg h0, if_neg h]
  refine ⟨by simp [mapVid, setPteVid], rfl, fun pid => ?_⟩
  rcases eq_or_ne pid k.cur.curPid with rfl | hne
  · simp [mapVid, modifyPcb]
  · simp [mapVid, modifyPcb, hne]

end Kernel

namespace Machine

/-! ## The flag of the owner -/

/-- `vid_set` of a live process is 0 or 1. -/
def VidBits (m : Machine) : Prop :=
  ∀ p ∈ m.live, (m.kernel.proc.pcb p).vidSet = 0 ∨ (m.kernel.proc.pcb p).vidSet = 1

theorem VidBits.ne_one_iff {m : Machine} (h : m.VidBits) {p : Word} (hp : p ∈ m.live) :
    (m.kernel.proc.pcb p).vidSet ≠ 1 ↔ (m.kernel.proc.pcb p).vidSet = 0 := by
  rcases h p hp with h0 | h1
  · simp [h0]
  · simp [h1]

theorem VidBits.stay {m : Machine} (h : m.VidBits) {k : Kernel}
    (hk : ∀ p, (k.proc.pcb p).vidSet = (m.kernel.proc.pcb p).vidSet) :
    (m.withKernel k).VidBits := by
  intro p hp
  show (k.proc.pcb p).vidSet = 0 ∨ (k.proc.pcb p).vidSet = 1
  rw [hk]
  exact h p hp

theorem VidBits.exit {m m' : Machine} (hc : m.Coherent) (h : m.VidBits)
    {r : Option (Kernel.Frame × Kernel)}
    (hx : ∀ frame k, r = some (frame, k) → m.kernel.Exits frame k) (hm' : m.exit r = some m') :
    m'.VidBits := by
  intro p hp
  obtain ⟨frame, k, hk, -, hres⟩ := exit_eq_some hm'
  rw [resume_kernel hres, (hx frame k hk).vidSet]
  exact h p (hc.live_exit hx hm' hp).1

theorem vidSet_congr {k k' : Kernel} (h : k'.proc = k.proc) (p : Word) :
    (k'.proc.pcb p).vidSet = (k.proc.pcb p).vidSet := by
  rw [h]

theorem vidBits_step {img : Image} {m m' : Machine} {e : Event} (hc : m.Coherent) (h : m.VidBits)
    (hstep : m.step img e = some m') : m'.VidBits := by
  cases step_cases hstep with
  | fail _ => exact h.stay fun _ => rfl
  | @start frame command pid target k hexec hs =>
    intro p hp
    show (k.proc.pcb p).vidSet = 0 ∨ (k.proc.pcb p).vidSet = 1
    rcases eq_or_ne p pid with rfl | hne
    · rw [hs.pcb_self]
      exact Or.inl rfl
    · rw [hs.pcb_of_ne hne]
      exact h p ((mem_live_enter hp).resolve_left hne)
  | exit hcall hm' => exact VidBits.exit hc h (fun _ _ => hcall.exits) hm'
  | fdCall _ hcall => exact h.stay hcall.fdSteps.onlyFds.vidSet
  | @vidmap screenStart _ =>
    by_cases hlt : screenStart < 0x800000
    · rw [Kernel.vidmap_of_lt hlt]
      exact h
    · intro p hp
      obtain ⟨-, -, hset⟩ := Kernel.vidmap_of_le hlt m.kernel
      show _ ∨ _
      rw [withKernel, hset]
      split_ifs
      · exact Or.inr rfl
      · exact h p hp
  | switch frame =>
    exact h.stay fun p => congrArg (fun f => (f p).vidSet) (Kernel.interruptPit_pcb _ _)
  | quiet hq => exact h.stay (vidSet_congr hq.proc)

/-! ## Each step -/

/-- A page that is there and right belongs to a process that called `vidmap`. -/
theorem videoFollows_of_present {m : Machine} {k : Kernel} (h : present (k.paging.pteVid 0))
    (hp : pageOf (k.paging.pteVid 0) = k.screenPage k.proc.scheduleIndex) (hk : m.kernel = k) :
    m.VideoFollows ↔ ∀ p, m.running = some p → (k.proc.pcb p).vidSet = 1 := by
  subst hk
  simp [VideoFollows, h, hp, terminal]

/-- A page that is not there belongs to a process that did not. -/
theorem videoFollows_of_absent {m : Machine} {k : Kernel} (h : ¬present (k.paging.pteVid 0))
    (hk : m.kernel = k) :
    m.VideoFollows ↔ ∀ p, m.running = some p → (k.proc.pcb p).vidSet ≠ 1 := by
  subst hk
  simp [VideoFollows, h]

section Steps

variable {img : Image} {m m' : Machine}

/-- Steps that leave the mapping, the owner and the terminals alone. -/
theorem videoFollows_congr {k : Kernel} (h : m.kernel.OnlyFds k) :
    (m.withKernel k).VideoFollows ↔ m.VideoFollows := by
  have hterm : (m.withKernel k).terminal = m.terminal := h.context.scheduleIndex
  unfold VideoFollows
  rw [running_withKernel h.context.scheduleIndex, hterm]
  simp only [withKernel, h.paging, h.vidSet, Kernel.screenPage, h.visibleScreen]

theorem videoFollows_switchVid (hq : m.VideoFollows) (target : Terminal) :
    (m.withKernel (m.kernel.switchVid target)).VideoFollows ↔ m.SwitchOk target := by
  rcases eq_or_ne target m.kernel.screen.visibleScreen with rfl | hne
  · rw [Kernel.switchVid_self]
    exact iff_of_true hq (Or.inl rfl)
  · have hproc := (Kernel.sameProc_switchVid target m.kernel).proc
    obtain ⟨-, hpte⟩ := Kernel.switchVid_of_ne hne
    obtain ⟨hpres, hpage⟩ := Kernel.vidEntry_spec (m.kernel.switchVid target)
    rw [← hpte] at hpres hpage
    generalize m.kernel.switchVid target = k at hproc hpres hpage ⊢
    have hsched : k.proc.scheduleIndex = m.terminal := by
      rw [hproc]
      rfl
    rw [videoFollows_of_present hpres hpage rfl, running_withKernel hsched, SwitchOk,
      or_iff_right hne, hproc]

theorem videoFollows_exit (hc : m.Coherent) (hb : m.VidBits) (hc' : m'.Coherent)
    {r : Option (Kernel.Frame × Kernel)}
    (hx : ∀ frame k, r = some (frame, k) → m.kernel.Exits frame k) (hm' : m.exit r = some m') :
    m'.VideoFollows ↔ (m.kernel.proc.pcb m.kernel.cur.curPid).parentPid = noPid ∨
      (m.kernel.proc.pcb (m.kernel.proc.pcb m.kernel.cur.curPid).parentPid).vidSet = 0 := by
  obtain ⟨frame, k, hk, -, hres⟩ := exit_eq_some hm'
  have hexit := hx frame k hk
  have hkernel := resume_kernel hres
  have habsent : ¬present (k.paging.pteVid 0) := by
    rw [hexit.pteVid, Function.update_self]
    decide
  have hcur : m'.kernel.cur.curPid = (m.kernel.proc.pcb m.kernel.cur.curPid).parentPid := by
    rw [hkernel, hexit.cur_eq]
  rw [videoFollows_of_absent habsent hkernel, hc'.running_eq, hcur]
  split_ifs with hp
  · exact iff_of_true (by simp) (Or.inl hp)
  · have hrun : m'.running = some (m.kernel.proc.pcb m.kernel.cur.curPid).parentPid := by
      rw [hc'.running_eq, hcur, if_neg hp]
    have hlive := (hc.live_exit hx hm' (hc'.running_mem hrun)).1
    rw [or_iff_right hp, ← hb.ne_one_iff hlive]
    simp only [Option.some.injEq, forall_eq', hexit.vidSet]

theorem videoFollows_contextSwitch (hb : m.VidBits) (frame : Kernel.SwitchFrame)
    (hc' : (m.withKernel (m.kernel.interruptPit frame)).Coherent) :
    (m.withKernel (m.kernel.interruptPit frame)).VideoFollows := by
  have hpte := Kernel.contextSwitch_pteVid frame m.kernel
  have hpcb := Kernel.interruptPit_pcb frame m.kernel
  have hcur := Kernel.interruptPit_cur frame m.kernel
  have hvid := Kernel.interruptPit_frame Kernel.vidEntry (fun _ _ => rfl) frame m.kernel
  rw [← hvid, ← Kernel.interruptPit_paging] at hpte
  obtain ⟨hpres, hpage⟩ := Kernel.vidEntry_spec (m.kernel.interruptPit frame)
  generalize m.kernel.interruptPit frame = k at hc' hpte hpcb hcur hpres hpage ⊢
  intro p hp
  obtain ⟨c, rest, -, -, hne, -⟩ := hc'.stack_eq (by simp [hp])
  have hpid : m.kernel.next.curPid = p := by
    rw [← hcur]
    exact (hc'.installed hp).curPid
  change k.cur.curPid ≠ noPid at hne
  rw [hcur, hpid] at hne
  rw [hpid, if_neg hne, ← hpcb] at hpte
  have hbit : (k.proc.pcb p).vidSet = 0 ∨ (k.proc.pcb p).vidSet = 1 :=
    hpcb ▸ hb p (hc'.running_mem hp)
  show (present (k.paging.pteVid 0) ↔ (k.proc.pcb p).vidSet = 1) ∧
    (present (k.paging.pteVid 0) →
      pageOf (k.paging.pteVid 0) = k.screenPage k.proc.scheduleIndex)
  rcases hbit with h0 | h1
  · rw [h0, if_neg (by simp)] at hpte
    rw [hpte]
    exact ⟨iff_of_false (by decide) (by simp [h0]), fun h => absurd h (by decide)⟩
  · rw [h1, if_pos (by decide)] at hpte
    rw [hpte]
    exact ⟨iff_of_true hpres h1, fun _ => hpage⟩

theorem videoFollows_execute {frame : Kernel.ExecFrame} {command : CString} (hq : m.VideoFollows)
    (hstep : m.step img (.execute frame command) = some m') :
    m'.VideoFollows ↔ VideoOk img m (.execute frame command) := by
  rcases execute_eq_some hstep with ⟨k, b, hexec, rfl⟩ | ⟨pid, target, k, hexec, hs, rfl⟩
  · have hsame : m.kernel.OnlyFds (m.kernel.setInterruptFlag b) :=
      ⟨⟨rfl, rfl, rfl, rfl, rfl, fun _ => rfl⟩, rfl, rfl, fun _ => rfl,
        fun ptr _ => by cases ptr <;> rfl⟩
    refine iff_of_true ((videoFollows_congr hsame).2 hq) fun hx havail => ?_
    rcases Kernel.execute_of_executable hx m.kernel with ⟨-, hnone⟩ | ⟨_, _, _, hexec', -⟩
    · exact absurd hnone havail
    · rw [hexec] at hexec'
      simp at hexec'
  · have hx := Kernel.executable_of_iret hexec
    have hpte : k.paging.pteVid = m.kernel.paging.pteVid := by
      rw [hs.paging, Kernel.mapPageExec_pteVid]
    have hrun := running_enter m ⟨⟨frame.esp, frame.ebp⟩, pid⟩ hs.scheduleIndex
    have hvid : (k.proc.pcb pid).vidSet ≠ 1 := by
      rw [hs.pcb_self]
      show (0 : Word) ≠ 1
      decide
    constructor
    · intro h _ _ hpres
      have hp := (h pid hrun).1
      change present (k.paging.pteVid 0) ↔ (k.proc.pcb pid).vidSet = 1 at hp
      rw [hpte] at hp
      exact hvid (hp.1 hpres)
    · intro h
      have habsent : ¬present (k.paging.pteVid 0) := by
        rw [hpte]
        exact h hx (by simp [hs.avail])
      refine (videoFollows_of_absent habsent rfl).2 fun p hp => ?_
      obtain rfl := Option.some.inj (hrun.symm.trans hp)
      exact hvid

theorem videoFollows_vidmap (hc : m.Coherent) (hq : m.VideoFollows) (screenStart : Word)
    (hr : m.running ≠ none) :
    (m.withKernel (m.kernel.vidmap screenStart).2.2).VideoFollows ↔
      VideoOk img m (.vidmap screenStart) := by
  by_cases hlt : screenStart < 0x800000
  · rw [Kernel.vidmap_of_lt hlt]
    exact iff_of_true hq fun hge => absurd hlt (UInt32.not_lt.2 hge)
  · obtain ⟨hpte, hscreen, hset⟩ := Kernel.vidmap_of_le hlt m.kernel
    have hsched := (Kernel.sameContext_vidmap screenStart m.kernel).scheduleIndex
    generalize (m.kernel.vidmap screenStart).2.2 = k at hpte hscreen hset hsched ⊢
    obtain ⟨p, hp⟩ := Option.ne_none_iff_exists'.1 hr
    have hcur := (hc.installed hp).curPid
    have hrun : (m.withKernel k).running = some p := (running_withKernel hsched).trans hp
    have hvid : (k.proc.pcb p).vidSet = 1 := by rw [hset, if_pos hcur.symm]
    have hpage : pageOf ((pageKb + videoOffset) ||| 5) = 0xB8000 := by decide
    have hown : k.screenPage k.proc.scheduleIndex = m.kernel.screenPage m.terminal := by
      rw [hsched, Kernel.screenPage, hscreen]
      rfl
    have hiff : (m.withKernel k).VideoFollows ↔
        0xB8000 = m.kernel.screenPage m.terminal := by
      have hpres : present (k.paging.pteVid 0) := by
        rw [hpte]
        decide
      constructor
      · intro h
        have hp' : pageOf (k.paging.pteVid 0) = k.screenPage k.proc.scheduleIndex :=
          (h p hrun).2 hpres
        rw [hpte, hpage, hown] at hp'
        exact hp'
      · intro h
        have hp' : pageOf (k.paging.pteVid 0) = k.screenPage k.proc.scheduleIndex := by
          rw [hpte, hpage, hown, h]
        refine (videoFollows_of_present hpres hp' rfl).2 fun q hq => ?_
        obtain rfl := Option.some.inj (hrun.symm.trans hq)
        exact hvid
    rw [hiff]
    unfold Kernel.screenPage VideoOk
    split_ifs with ht
    · exact iff_of_true rfl fun _ => ht
    · exact iff_of_false (by omega) fun h => ht (h (UInt32.not_lt.1 hlt))

theorem videoFollows_interruptKeyboard (hq : m.VideoFollows) (code : Byte) :
    (m.withKernel (m.kernel.interruptKeyboard code)).VideoFollows ↔
      VideoOk img m (.interruptKeyboard code) := by
  have hk := (Kernel.onlyDevices_interruptKeyboard code m.kernel).onlyFds
  cases ht : m.kernel.altTarget code with
  | none =>
    rw [ht] at hk
    refine iff_of_true ((videoFollows_congr hk).2 hq) fun t h => ?_
    rw [ht] at h
    simp at h
  | some t =>
    rw [ht] at hk
    have hs : (m.withKernel (m.kernel.interruptKeyboard code)).VideoFollows ↔
        (m.withKernel (m.kernel.switchVid t)).VideoFollows :=
      @videoFollows_congr (m.withKernel (m.kernel.switchVid t)) _ hk
    rw [hs, videoFollows_switchVid hq]
    simp [VideoOk, ht]

end Steps

/-- The exact condition under which a step keeps the user video page right. -/
theorem videoFollows_step {img : Image} {m m' : Machine} {e : Event} (hc : m.Coherent)
    (hb : m.VidBits) (hq : m.VideoFollows) (hstep : m.step img e = some m') :
    m'.VideoFollows ↔ VideoOk img m e := by
  have hc' := coherent_step hc hstep
  cases step_cases hstep with
  | fail _ => exact videoFollows_execute hq hstep
  | start _ _ => exact videoFollows_execute hq hstep
  | exit hcall hm' =>
    have hexit := videoFollows_exit hc hb hc' (fun _ _ => hcall.exits) hm'
    cases hcall with
    | halt status => exact hexit
    | haltException => exact hexit
  | fdCall _ hcall =>
    have hok : VideoOk img m e := by
      cases hcall with
      | «open» _ => trivial
      | close _ => trivial
      | read _ => trivial
      | write _ => trivial
    exact iff_of_true ((videoFollows_congr hcall.fdSteps.onlyFds).2 hq) hok
  | vidmap hr => exact videoFollows_vidmap hc hq _ hr
  | switch frame => exact iff_of_true (videoFollows_contextSwitch hb frame hc') trivial
  | quiet hquiet =>
    cases hquiet with
    | interruptKeyboard code => exact videoFollows_interruptKeyboard hq code
    | interruptRtc => exact iff_of_true ((videoFollows_congr (.of_eq rfl rfl rfl)).2 hq) trivial
    | switchVid target => exact videoFollows_switchVid hq target

/-! ## Whole runs -/

theorem running_boot {m : Machine} (h : m.Booted) : m.running = none := by
  obtain ⟨k, -, rfl⟩ := h
  rfl

theorem vidBits_boot {m : Machine} (h : m.Booted) : m.VidBits := by
  obtain ⟨k, -, rfl⟩ := h
  exact fun p hp => absurd hp List.not_mem_nil

/-- The user video page follows its owner in every state of a run from boot exactly when every
step of the run meets `VideoOk`. -/
theorem allStates_videoFollows_iff {img : Image} {m : Machine} (h : m.Booted) {es : List Event}
    (hown : Transition.AllEvents (step img) (OwnReads img) m es) :
    Transition.AllStates (step img) VideoFollows m es ↔
      Transition.AllSteps (step img) (fun m e _ => VideoOk img m e) m es := by
  have hinv : ∀ (m : Machine) (e : Event) (m' : Machine), (m.Coherent ∧ m.VidBits) →
      OwnReads img m e → m.step img e = some m' → m'.Coherent ∧ m'.VidBits :=
    fun _ _ _ hi _ hstep => ⟨coherent_step hi.1 hstep, vidBits_step hi.1 hi.2 hstep⟩
  refine Transition.allStates_iff_allSteps hinv
    (fun _ _ _ hi hq hstep => videoFollows_step hi.1 hi.2 hq hstep) hown
    ⟨coherent_boot h, vidBits_boot h⟩ fun p hp => ?_
  rw [running_boot h] at hp
  simp at hp

/-- The first shell maps the screen. -/
theorem exists_video_shell : ∃ m₁ m₂ : Machine,
    first.step Kernel.shellImage (.execute ⟨0, 0, fun _ => 0⟩ Kernel.shellCommand) = some m₁ ∧
      m₁.step Kernel.shellImage (.vidmap 0x8048000) = some m₂ ∧
      m₁.terminal = m₁.kernel.screen.visibleScreen ∧ m₂.running = some 0 ∧ m₂.live = [0] ∧
      (m₂.kernel.proc.pcb 0).vidSet = 1 ∧ present (m₂.kernel.paging.pteVid 0) := by
  obtain ⟨k, hs, h₁⟩ := start_first_shell ⟨0, 0, fun _ => 0⟩
  have hrun := running_enter first ⟨⟨0, 0⟩, 0⟩ hs.scheduleIndex
  have hlive : (first.enter ⟨⟨0, 0⟩, 0⟩ k).live = [0] := rfl
  have hshown : (first.enter ⟨⟨0, 0⟩, 0⟩ k).terminal = k.screen.visibleScreen := by
    rw [hs.visibleScreen]
    exact hs.scheduleIndex
  have hcur : k.cur.curPid = 0 := by rw [hs.cur_eq]
  have h₂ : (first.enter ⟨⟨0, 0⟩, 0⟩ k).step Kernel.shellImage (.vidmap 0x8048000) =
      some ((first.enter ⟨⟨0, 0⟩, 0⟩ k).withKernel (k.vidmap 0x8048000).2.2) := by
    show userCall _ _ = _
    rw [userCall, if_neg (by simp [hrun])]
    rfl
  obtain ⟨hpte, -, hset⟩ := Kernel.vidmap_of_le (show ¬(0x8048000 : Word) < 0x800000 by decide) k
  refine ⟨_, _, h₁, h₂, hshown, ?_, hlive, ?_, ?_⟩
  · exact (running_withKernel (Kernel.sameContext_vidmap _ _).scheduleIndex).trans hrun
  · rw [withKernel, hset, hcur, if_pos rfl]
  · rw [withKernel, hpte]
    decide

/-- The shell maps the screen and goes on while another terminal is shown. -/
theorem allStates_videoFollows_first :
    Transition.AllStates (step Kernel.shellImage) VideoFollows first
      [.execute ⟨0, 0, fun _ => 0⟩ Kernel.shellCommand, .vidmap 0x8048000, .switchVid 1] := by
  obtain ⟨m₁, m₂, h₁, h₂, hshown, hrun, -, hset, -⟩ := exists_video_shell
  refine (allStates_videoFollows_iff first_booted (allEvents_ownReads (by decide))).2 ?_
  refine Transition.allSteps_cons h₁ (fun _ _ => ?_) (Transition.allSteps_cons h₂ (fun _ => hshown)
    (Transition.allSteps_cons rfl (Or.inr fun p hp => ?_) trivial))
  · show ¬present 0
    decide
  · obtain rfl := Option.some.inj (hrun.symm.trans hp)
    exact hset

/-- The shell maps the screen and starts a program, which finds it mapped. -/
theorem not_allStates_videoFollows :
    ¬Transition.AllStates (step Kernel.shellImage) VideoFollows first
      [.execute ⟨0, 0, fun _ => 0⟩ Kernel.shellCommand, .vidmap 0x8048000,
        .execute ⟨0, 0, fun _ => 0⟩ Kernel.shellCommand] := by
  intro h
  obtain ⟨m₁, m₂, h₁, h₂, -, hrun, hlive, -, hpres⟩ := exists_video_shell
  have hc₁ := coherent_step (coherent_boot first_booted) h₁
  have hc₂ := coherent_step hc₁ h₂
  have hb₂ := vidBits_step hc₁
    (vidBits_step (coherent_boot first_booted) (vidBits_boot first_booted) h₁) h₂
  have havail : m₂.kernel.getAvailPcb ≠ none := by
    intro hnone
    have hlen : m₂.live.length = 8 := hc₂.getAvailPcb_eq_none_iff.1 hnone
    rw [hlive] at hlen
    exact absurd hlen (by decide)
  obtain ⟨pid, hpid⟩ := Option.ne_none_iff_exists'.1 havail
  obtain ⟨k₃, -, h₃⟩ := step_execute (Kernel.shell_executable ⟨0, 0, fun _ => 0⟩) m₂ hpid
  have hall := (h.2 _ h₁).2 _ h₂
  have hok := (videoFollows_step hc₂ hb₂ hall.head h₃).1 (hall.2 _ h₃).head
  exact hok (Kernel.shell_executable _) havail hpres

end Machine

end MpOS
