import MpOS.Output
import MpOS.VideoMap

/-!
# Terminal isolation

Each terminal against a console of its own, which gets the characters `putc` writes
while the terminal is scheduled and the keys echoed while it is visible. Switching
terminals moves the contents of pages about and changes what no terminal shows, and
`putc_keyboard` reaches the text page through a mapping that never changes.

`putc` stores through virtual page 184 if its terminal is visible, and always scrolls
from it. `context_switch` maps that page to the page of the terminal it turns to, and
`switch_vid` moves the pages without a look at the mapping. Until the next tick the
mapping is stale, and `putc` is right only where it does not use it (`OutputOk`).
-/

namespace MpOS

namespace Kernel

/-- A byte of a terminal's screen. -/
def screenByte (k : Kernel) (t : Terminal) (off : ℕ) : Byte :=
  k.screen.ram (k.screenPage t + off)

/-- The console of a terminal. -/
def consoles (k : Kernel) (t : Terminal) : TextConsole Cell :=
  k.console (k.screenPage t) t

/-- The steps that write to the screens or move them. -/
inductive ScreenEvent
  | putc (c : Byte)
  | putcKeyboard (c : Byte)
  | switchVid (target : Terminal)
  | contextSwitch (frame : SwitchFrame)

/-- One such step. -/
def screenStep (k : Kernel) : ScreenEvent → Option Kernel
  | .putc c => some (k.putc c)
  | .putcKeyboard c => some (k.putcKeyboard c)
  | .switchVid target => some (k.switchVid target)
  | .contextSwitch frame => some (k.contextSwitch frame)

/-- The terminals as consoles of their own. -/
def recordOutput (k : Kernel) (e : ScreenEvent) (s : Terminal → TextConsole Cell) :
    Terminal → TextConsole Cell :=
  match e with
  | .putc c => Function.update s k.proc.scheduleIndex (feed c (s k.proc.scheduleIndex))
  | .putcKeyboard c =>
    Function.update s k.screen.visibleScreen (feed c (s k.screen.visibleScreen))
  | _ => s

/-- Each terminal shows what its console shows, with the same cursor. -/
def Shows (s : Kernel × (Terminal → TextConsole Cell)) : Prop :=
  ∀ t, TextConsole.Same 80 25 (s.1.consoles t) (s.2 t)

/-- A character of `putc` finds virtual page 184 mapped to the page of the scheduled terminal,
or does not use it : it does not scroll, and is not stored or its terminal is hidden. -/
def OutputOk (k : Kernel) : ScreenEvent → Prop
  | .putc c =>
    k.phys videoMem = k.screenPage k.proc.scheduleIndex ∨
      ¬Scrolls c (k.consoles k.proc.scheduleIndex) ∧
        (c = 0 ∨ c = 10 ∨ c = 13 ∨ k.proc.scheduleIndex ≠ k.screen.visibleScreen)
  | _ => True

/-- The mappings `init_paging` makes that never change : the backing pages, and the text page at
virtual page 188. -/
structure PagesMapped (k : Kernel) : Prop where
  back : ∀ t : Terminal, k.phys (0xB9000 + 0x1000 * t) = 0xB9000 + 0x1000 * t
  key : k.phys keyVideoMem = 0xB8000

/-- Before the first step : the first terminal is scheduled and visible, the page tables are as
`init_paging` leaves them, and the cursors are on the screen. -/
structure ScreenStart (k : Kernel) : Prop where
  scheduleIndex : k.proc.scheduleIndex = 0
  visibleScreen : k.screen.visibleScreen = 0
  pte : k.paging.pte = k.initPaging.paging.pte
  inBounds : ∀ t, (k.consoles t).InBounds 80 25

/-! ## Pages -/

/-- The pages of two terminals lie apart. -/
theorem screenPage_apart (k : Kernel) {t t' : Terminal} (h : t ≠ t') :
    k.screenPage t + 4000 ≤ k.screenPage t' ∨ k.screenPage t' + 4000 ≤ k.screenPage t := by
  have hne : (t : ℕ) ≠ t' := fun heq => h (Fin.ext heq)
  unfold screenPage
  split_ifs with h₁ h₂
  · exact absurd (h₁.trans h₂.symm) h
  · omega
  · omega
  · omega

/-- Only the entry of the display page may change. -/
theorem PagesMapped.congr {k k' : Kernel} (h : k.PagesMapped)
    (hp : ∀ i, i ≠ videoMemory → k'.paging.pte i = k.paging.pte i) : k'.PagesMapped := by
  have hphys : ∀ a, a / 4096 ≠ videoMemory → k'.phys a = k.phys a := by
    intro a ha
    rw [phys, phys, hp _ ha]
  refine ⟨fun t => ?_, ?_⟩
  · rw [hphys _ (by unfold videoMemory; omega)]
    exact h.back t
  · rw [hphys _ (by decide)]
    exact h.key

/-- `init_paging` maps the screens so. -/
theorem pagesMapped_of_pte {k : Kernel} (h : k.paging.pte = k.initPaging.paging.pte) :
    k.PagesMapped ∧ k.phys videoMem = 0xB8000 := by
  have hphys : ∀ a, k.phys a = zero.initPaging.phys a := by
    intro a
    rw [phys, phys, h]
    rfl
  refine ⟨⟨fun t => ?_, ?_⟩, ?_⟩ <;> rw [hphys]
  · revert t
    decide
  · decide
  · decide

/-! ## Output -/

/-- A character written on a terminal's own page reaches that terminal and no other. -/
theorem shows_putChar {k k' : Kernel} {s : Terminal → TextConsole Cell} {t : Terminal} {c : Byte}
    (h : Shows (k, s))
    (hself : TextConsole.Same 80 25 (k'.console (k.screenPage t) t) (feed c (k.consoles t)))
    (honly : OnlyPage (k.screenPage t) t k k') :
    Shows (k', Function.update s t (feed c (s t))) := by
  have hpage : k'.screenPage = k.screenPage := by
    funext t'
    rw [screenPage, screenPage, honly.onlyScreen.visibleScreen]
  intro t'
  show TextConsole.Same 80 25 (k'.console (k'.screenPage t') t')
    (Function.update s t (feed c (s t)) t')
  rw [hpage]
  rcases eq_or_ne t' t with rfl | hne
  · rw [Function.update_self]
    exact hself.trans (same_feed (h t') c)
  · rw [Function.update_of_ne hne]
    exact (honly.console hne (k.screenPage_apart hne)).trans (h t')

/-- The echo of a key goes to the visible screen. -/
theorem putcKeyboard_spec {k : Kernel} (hp : k.PagesMapped)
    (hb : (k.consoles k.screen.visibleScreen).InBounds 80 25) (c : Byte) :
    TextConsole.Same 80 25
        ((k.putcKeyboard c).console (k.screenPage k.screen.visibleScreen) k.screen.visibleScreen)
        (feed c (k.consoles k.screen.visibleScreen)) ∧
      OnlyPage (k.screenPage k.screen.visibleScreen) k.screen.visibleScreen k
        (k.putcKeyboard c) := by
  have hkey : k.phys keyVideoMem = k.screenPage k.screen.visibleScreen := by
    rw [hp.key, screenPage, if_pos rfl]
  exact console_putChar (by decide) (by decide) hb (fun _ _ => hkey) fun _ => ⟨hkey, hkey⟩

/-- Output is written through a page of its own. -/
theorem outputMem_mod (k : Kernel) : k.outputMem % 4096 = 0 := by
  unfold outputMem videoMem
  split_ifs <;> omega

/-- A hidden terminal's page is reached under its own address. -/
theorem phys_outputMem {k : Kernel} (hp : k.PagesMapped)
    (h : k.phys videoMem = k.screenPage k.proc.scheduleIndex ∨
      k.proc.scheduleIndex ≠ k.screen.visibleScreen) :
    k.phys k.outputMem = k.screenPage k.proc.scheduleIndex := by
  by_cases hv : k.proc.scheduleIndex = k.screen.visibleScreen
  · rw [outputMem, if_pos hv]
    exact h.resolve_right (not_not.2 hv)
  · have hback : videoMem + 0x1000 * ((k.proc.scheduleIndex : ℕ) + 1) =
        0xB9000 + 0x1000 * (k.proc.scheduleIndex : ℕ) := by
      unfold videoMem
      omega
    rw [outputMem, if_neg hv, hback, screenPage, if_neg hv]
    exact hp.back _

/-- Output of the running terminal goes to its own screen. -/
theorem putc_spec {k : Kernel} (hp : k.PagesMapped)
    (hb : (k.consoles k.proc.scheduleIndex).InBounds 80 25) {c : Byte}
    (hok : OutputOk k (.putc c)) :
    TextConsole.Same 80 25
        ((k.putc c).console (k.screenPage k.proc.scheduleIndex) k.proc.scheduleIndex)
        (feed c (k.consoles k.proc.scheduleIndex)) ∧
      OnlyPage (k.screenPage k.proc.scheduleIndex) k.proc.scheduleIndex k (k.putc c) := by
  rw [putc_eq]
  refine console_putChar k.outputMem_mod (by decide) hb (fun h0 hnl => phys_outputMem hp ?_)
    fun hscroll => ?_
  · rcases hok with hfresh | ⟨-, h | h | h | hhidden⟩
    · exact Or.inl hfresh
    · exact absurd h h0
    · exact absurd (Or.inl h) hnl
    · exact absurd (Or.inr h) hnl
    · exact Or.inr hhidden
  · have hfresh := hok.resolve_right fun h => h.1 hscroll
    exact ⟨phys_outputMem hp (Or.inl hfresh), hfresh⟩

/-- Wherever virtual page 184 is mapped, a hidden terminal stores to no page but its own. -/
theorem onlyPage_putc {k : Kernel} (hp : k.PagesMapped)
    (hv : k.proc.scheduleIndex ≠ k.screen.visibleScreen)
    (hb : (k.consoles k.proc.scheduleIndex).InBounds 80 25) (c : Byte) :
    OnlyPage (k.screenPage k.proc.scheduleIndex) k.proc.scheduleIndex k (k.putc c) := by
  rw [putc_eq]
  have hmem := phys_outputMem hp (Or.inr hv)
  exact onlyPage_putChar k.outputMem_mod (by decide) ⟨hb.x, hb.y⟩ (fun _ _ => hmem) fun _ => hmem

/-! ## Switches -/

theorem switchVid_pte (target : Terminal) (k : Kernel) :
    (k.switchVid target).paging.pte = k.paging.pte := by
  unfold switchVid
  split_ifs <;> rfl

/-- `switch_vid` saves the text page to the backing page of the terminal that was visible, and
loads the new one's. -/
theorem switchVid_ram {k : Kernel} (hp : k.PagesMapped) {target : Terminal}
    (hne : target ≠ k.screen.visibleScreen) (a : ℕ) :
    (k.switchVid target).screen.ram a =
      if 0xB8000 ≤ a ∧ a < 0xB8000 + 4000 then
        k.screen.ram (0xB9000 + 0x1000 * target + (a - 0xB8000))
      else if 0xB9000 + 0x1000 * k.screen.visibleScreen ≤ a ∧
          a < 0xB9000 + 0x1000 * k.screen.visibleScreen + 4000 then
        k.screen.ram (0xB8000 + (a - (0xB9000 + 0x1000 * k.screen.visibleScreen)))
      else k.screen.ram a := by
  have hr : ¬((target : ℤ) < -1 ∨ (target : ℤ) > 2) := by omega
  have hapart : (target : ℕ) ≠ k.screen.visibleScreen := fun heq => hne (Fin.ext heq)
  have hback : ∀ t : Terminal, k.phys (buffer1 + 0x1000 * t) = 0xB9000 + 0x1000 * t := hp.back
  -- the first copy leaves the page of the new terminal as it was
  have hsave : ∀ a,
      (k.memcpy (buffer1 + 0x1000 * k.screen.visibleScreen) keyVideoMem 4000).screen.ram a =
      if 0xB9000 + 0x1000 * (k.screen.visibleScreen : ℕ) ≤ a ∧
          a < 0xB9000 + 0x1000 * (k.screen.visibleScreen : ℕ) + 4000 then
        k.screen.ram (0xB8000 + (a - (0xB9000 + 0x1000 * (k.screen.visibleScreen : ℕ))))
      else k.screen.ram a := by
    intro a
    simp only [memcpy, hp.key, hback]
  have hphys : ∀ a, (k.memcpy (buffer1 + 0x1000 * k.screen.visibleScreen) keyVideoMem 4000).phys a =
      k.phys a := fun _ => rfl
  simp only [switchVid, if_neg hr, if_neg hne, setPteVid_screen]
  generalize k.memcpy (buffer1 + 0x1000 * k.screen.visibleScreen) keyVideoMem 4000 = k₁
    at hsave hphys ⊢
  simp only [memcpy, hphys, hp.key, hback]
  by_cases ha : 0xB8000 ≤ a ∧ a < 0xB8000 + 4000
  · rw [if_pos ha, if_pos ha, hsave, if_neg (by omega)]
  · rw [if_neg ha, if_neg ha, hsave]

/-- The target becomes visible. -/
theorem switchVid_visibleScreen (k : Kernel) (target : Terminal) :
    (k.switchVid target).screen.visibleScreen = target := by
  have hr : ¬((target : ℤ) < -1 ∨ (target : ℤ) > 2) := by omega
  unfold switchVid
  rw [if_neg hr]
  split_ifs with h
  · exact h.symm
  · rfl

/-- A switch moves no cursor. -/
theorem switchVid_cursor (k : Kernel) (target : Terminal) :
    (k.switchVid target).screen.screenX = k.screen.screenX ∧
      (k.switchVid target).screen.screenY = k.screen.screenY := by
  unfold switchVid
  split_ifs <;> exact ⟨rfl, rfl⟩

/-- It moves the contents of pages, and no terminal shows anything else. -/
theorem screenByte_switchVid {k : Kernel} (hp : k.PagesMapped) (target t : Terminal) {off : ℕ}
    (hoff : off < 4000) : (k.switchVid target).screenByte t off = k.screenByte t off := by
  rcases eq_or_ne target k.screen.visibleScreen with rfl | hne
  · rw [switchVid_self]
  · have hapart : (target : ℕ) ≠ k.screen.visibleScreen := fun heq => hne (Fin.ext heq)
    rw [screenByte, screenByte, screenPage, screenPage, switchVid_visibleScreen,
      switchVid_ram hp hne]
    rcases eq_or_ne t target with rfl | ht
    · rw [if_pos rfl, if_pos (by omega), if_neg hne, Nat.add_sub_cancel_left]
    · have ht' : (t : ℕ) ≠ target := fun heq => ht (Fin.ext heq)
      rw [if_neg ht, if_neg (by omega)]
      rcases eq_or_ne t k.screen.visibleScreen with rfl | hv
      · rw [if_pos (by omega), if_pos rfl, Nat.add_sub_cancel_left]
      · have hv' : (t : ℕ) ≠ k.screen.visibleScreen := fun heq => hv (Fin.ext heq)
        rw [if_neg (by omega), if_neg hv]

/-- Equal bytes are equal cells. -/
theorem same_consoles_iff {k k' : Kernel} {t : Terminal} :
    TextConsole.Same 80 25 (k'.consoles t) (k.consoles t) ↔
      (∀ off < 4000, k'.screenByte t off = k.screenByte t off) ∧
        k'.screen.screenX t = k.screen.screenX t ∧ k'.screen.screenY t = k.screen.screenY t := by
  constructor
  · intro h
    refine ⟨fun off hoff => ?_, h.x, h.y⟩
    have hcell := Prod.ext_iff.1 (h.cell (off / 2) (by omega))
    rcases Nat.mod_two_eq_zero_or_one off with heven | hodd
    · have hdiv : off = 2 * (off / 2) := by omega
      rw [hdiv]
      exact hcell.1
    · have hdiv : off = 2 * (off / 2) + 1 := by omega
      rw [hdiv]
      exact hcell.2
  · rintro ⟨hbyte, hx, hy⟩
    refine ⟨fun n hn => Prod.ext ?_ ?_, hx, hy⟩
    · exact hbyte (2 * n) (by omega)
    · exact hbyte (2 * n + 1) (by omega)

/-- No terminal's screen changes when another is shown. -/
theorem consoles_switchVid {k : Kernel} (hp : k.PagesMapped) (target t : Terminal) :
    TextConsole.Same 80 25 ((k.switchVid target).consoles t) (k.consoles t) :=
  same_consoles_iff.2 ⟨fun _ hoff => screenByte_switchVid hp target t hoff,
    congrFun (k.switchVid_cursor target).1 t, congrFun (k.switchVid_cursor target).2 t⟩

/-- `context_switch` maps virtual page 184 to the page of the terminal it turns to. -/
theorem contextSwitch_pte (frame : SwitchFrame) (k : Kernel) :
    (k.contextSwitch frame).paging.pte = Function.update k.paging.pte videoMemory
      (if k.screen.visibleScreen = k.proc.scheduleIndex + 1 then (videoOffset + fourKb * 0) ||| 3
        else (videoOffset + fourKb * (1 + (k.proc.scheduleIndex + 1).word)) ||| 3) := by
  have hword : ∀ t : Terminal, ¬1 + t.word > 3 := by decide
  simp only [contextSwitch, next_terminal, setEsp0, modifyCur, apply_ite Kernel.paging,
    apply_ite Paging.pte, mapPageExec_pte, setPteVid_pte, ite_self]
  by_cases hv : k.screen.visibleScreen = k.proc.scheduleIndex + 1
  · rw [if_pos hv, if_pos hv, mapScreenBuffer, if_neg (by decide)]
    rfl
  · rw [if_neg hv, if_neg hv, mapScreenBuffer, if_neg (hword _)]
    rfl

theorem phys_videoMem (k : Kernel) : k.phys videoMem = pageOf (k.paging.pte videoMemory) := by
  have hdiv : videoMem / 4096 = videoMemory := by decide
  have hmod : videoMem % 4096 = 0 := by decide
  rw [phys, hdiv, hmod, Nat.add_zero, pageOf]

/-- Right after a tick it maps the page of the scheduled terminal. -/
theorem contextSwitch_fresh (frame : SwitchFrame) (k : Kernel) :
    (k.contextSwitch frame).phys videoMem =
      (k.contextSwitch frame).screenPage (k.contextSwitch frame).proc.scheduleIndex := by
  have hpage : ∀ v t : Terminal, pageOf (if v = t then (videoOffset + fourKb * 0) ||| 3
      else (videoOffset + fourKb * (1 + t.word)) ||| 3) =
        if t = v then 0xB8000 else 0xB9000 + 0x1000 * (t : ℕ) := by
    decide
  have hindex : (k.contextSwitch frame).proc.scheduleIndex = k.proc.scheduleIndex + 1 := by
    rw [contextSwitch_proc]
  rw [phys_videoMem, contextSwitch_pte, Function.update_self, hpage, hindex, screenPage,
    contextSwitch_screen]

/-- Only `switch_vid` leaves virtual page 184 mapped to a page that is not the scheduled
terminal's. -/
theorem fresh_step {k k' : Kernel} {e : ScreenEvent}
    (h : k.phys videoMem = k.screenPage k.proc.scheduleIndex) (he : ∀ target, e ≠ .switchVid target)
    (hs : k.screenStep e = some k') :
    k'.phys videoMem = k'.screenPage k'.proc.scheduleIndex := by
  have honly : OnlyScreen k k' → k'.phys videoMem = k'.screenPage k'.proc.scheduleIndex := by
    intro ho
    rw [phys_videoMem, ho.paging, ← phys_videoMem, h, screenPage, screenPage, ho.proc,
      ho.visibleScreen]
  cases e with
  | putc c =>
    obtain rfl := Option.some.inj hs
    exact honly (onlyScreen_putc c k)
  | putcKeyboard c =>
    obtain rfl := Option.some.inj hs
    exact honly (onlyScreen_putcKeyboard c k)
  | switchVid target => exact absurd rfl (he target)
  | contextSwitch frame =>
    obtain rfl := Option.some.inj hs
    exact contextSwitch_fresh frame k

/-! ## Runs -/

/-- What carries a run besides what is shown : the mappings, and cursors on their screens. -/
structure ScreenInv (s : Kernel × (Terminal → TextConsole Cell)) : Prop where
  mapped : s.1.PagesMapped
  inBounds : ∀ t, (s.2 t).InBounds 80 25

/-- At the start the screens are what the consoles show. -/
theorem screenInv_start {k : Kernel} (h : k.ScreenStart) : ScreenInv (k, k.consoles) :=
  ⟨(pagesMapped_of_pte h.pte).1, h.inBounds⟩

/-- The screens stay mapped. -/
theorem PagesMapped.screenStep {k k' : Kernel} (h : k.PagesMapped) {e : ScreenEvent}
    (hs : k.screenStep e = some k') : k'.PagesMapped := by
  refine h.congr fun i hi => ?_
  cases e with
  | putc c =>
    obtain rfl := Option.some.inj hs
    rw [(onlyScreen_putc c k).paging]
  | putcKeyboard c =>
    obtain rfl := Option.some.inj hs
    rw [(onlyScreen_putcKeyboard c k).paging]
  | switchVid target =>
    obtain rfl := Option.some.inj hs
    rw [switchVid_pte]
  | contextSwitch frame =>
    obtain rfl := Option.some.inj hs
    rw [contextSwitch_pte, Function.update_of_ne hi]

theorem inBounds_recordOutput {k : Kernel} {s : Terminal → TextConsole Cell}
    (h : ∀ t, (s t).InBounds 80 25) (e : ScreenEvent) (t : Terminal) :
    (recordOutput k e s t).InBounds 80 25 := by
  have hupdate : ∀ (t' : Terminal) (c : Byte),
      (Function.update s t' (feed c (s t')) t).InBounds 80 25 := by
    intro t' c
    rcases eq_or_ne t t' with rfl | hne
    · rw [Function.update_self]
      exact inBounds_feed (h t) c
    · rw [Function.update_of_ne hne]
      exact h t
  cases e with
  | putc c => exact hupdate _ c
  | putcKeyboard c => exact hupdate _ c
  | switchVid _ => exact h t
  | contextSwitch _ => exact h t

/-- Every step keeps the screens what the consoles show. -/
theorem ScreenInv.step {s s' : Kernel × (Terminal → TextConsole Cell)} {e : ScreenEvent}
    (h : ScreenInv s) (hs : Transition.track screenStep recordOutput s e = some s') :
    ScreenInv s' := by
  obtain ⟨hstep, hrec⟩ := Transition.track_eq_some_iff.1 hs
  refine ⟨h.mapped.screenStep hstep, ?_⟩
  rw [hrec]
  exact inBounds_recordOutput h.inBounds e

/-- A step keeps what the terminals show, if `putc` has the right page. -/
theorem shows_step {s s' : Kernel × (Terminal → TextConsole Cell)} {e : ScreenEvent}
    (hi : ScreenInv s) (h : Shows s) (hok : OutputOk s.1 e)
    (hs : Transition.track screenStep recordOutput s e = some s') : Shows s' := by
  obtain ⟨k, c⟩ := s
  obtain ⟨k', c'⟩ := s'
  obtain ⟨hstep, hrec⟩ := Transition.track_eq_some_iff.1 hs
  obtain rfl := hrec
  have hb : ∀ t, (k.consoles t).InBounds 80 25 := fun t => (h t).symm.inBounds (hi.inBounds t)
  cases e with
  | putc ch =>
    obtain rfl := Option.some.inj hstep
    obtain ⟨hself, honly⟩ := putc_spec hi.mapped (hb _) hok
    exact shows_putChar h hself honly
  | putcKeyboard ch =>
    obtain rfl := Option.some.inj hstep
    obtain ⟨hself, honly⟩ := putcKeyboard_spec hi.mapped (hb _) ch
    exact shows_putChar h hself honly
  | switchVid target =>
    obtain rfl := Option.some.inj hstep
    exact fun t => (consoles_switchVid hi.mapped target t).trans (h t)
  | contextSwitch frame =>
    obtain rfl := Option.some.inj hstep
    have hsame : (k.contextSwitch frame).consoles = k.consoles := by
      funext t
      simp only [consoles, console, screenPage, contextSwitch_screen]
    have hc : Shows (k.contextSwitch frame, c) := by
      unfold Shows
      rw [hsame]
      exact h
    exact hc

/-- Along every run in which `putc` finds virtual page 184 mapped to its terminal's page, or does
not use it, each terminal shows what it would show as a terminal of its own. -/
theorem allStates_shows {k : Kernel} (h : k.ScreenStart) {es : List ScreenEvent}
    (hes : Transition.AllSteps (Transition.track screenStep recordOutput)
      (fun s e _ => OutputOk s.1 e) (k, k.consoles) es) :
    Transition.AllStates (Transition.track screenStep recordOutput) Shows (k, k.consoles) es :=
  Transition.allStates_of_allSteps (fun _ _ _ hi hs => hi.step hs)
    (fun _ _ _ hi hq hc hs => shows_step hi hq hc hs) (screenInv_start h)
    (fun _ => .refl _) hes

/-! ## From boot -/

theorem screen_setCurFd (k : Kernel) (fd : ℕ) (e : Fd) : (k.setCurFd fd e).screen = k.screen := by
  unfold setCurFd setFd
  split <;> rfl

theorem screen_processInit (k : Kernel) : k.processInit.screen = k.screen :=
  processInit_frame Kernel.screen (fun _ _ _ => rfl) k

theorem screen_boot (k : Kernel) : k.boot.screen = k.screen := by
  have hboot : k.boot.screen = (k.initFilesys.setEsp0 0x800000).keyboardInit.processInit.screen :=
    rfl
  rw [hboot, screen_processInit, keyboardInit, screen_setCurFd, screen_setCurFd]
  rfl

/-- The kernel boots into such a start. -/
theorem screenStart_boot {k : Kernel} (h : k.Bss)
    (hb : ∀ t, k.screen.screenX t < 80 ∧ k.screen.screenY t < 25) : k.boot.ScreenStart where
  scheduleIndex := rfl
  visibleScreen := by
    rw [screen_boot]
    exact h.visibleScreen
  pte := rfl
  inBounds t := by
    rw [consoles, console, screen_boot]
    exact ⟨(hb t).1, (hb t).2⟩

theorem screenStart_first : Machine.first.kernel.ScreenStart :=
  screenStart_boot zero_bss (by decide)

theorem allSteps_outputOk {k k' : Kernel} {s : Terminal → TextConsole Cell} {e : ScreenEvent}
    {es : List ScreenEvent} (h : k.screenStep e = some k') (hok : OutputOk k e)
    (hes : Transition.AllSteps (Transition.track screenStep recordOutput)
      (fun s e _ => OutputOk s.1 e) (k', recordOutput k e s) es) :
    Transition.AllSteps (Transition.track screenStep recordOutput)
      (fun s e _ => OutputOk s.1 e) (k, s) (e :: es) := by
  refine Transition.allSteps_cons ?_ hok hes
  rw [Transition.track, h]
  rfl

theorem allStates_shows_first : Transition.AllStates (Transition.track screenStep recordOutput)
    Shows (Machine.first.kernel, Machine.first.kernel.consoles)
    [.putc 97, .switchVid 1, .putcKeyboard 98, .contextSwitch ⟨0, 0, 0⟩, .putc 99] := by
  refine allStates_shows screenStart_first ?_
  refine allSteps_outputOk rfl (Or.inl (by decide +kernel)) ?_
  refine allSteps_outputOk rfl trivial ?_
  refine allSteps_outputOk rfl trivial ?_
  refine allSteps_outputOk rfl trivial ?_
  exact allSteps_outputOk rfl (Or.inl (contextSwitch_fresh _ _)) trivial

/-- The second terminal is scheduled, then shown, then prints : the character goes to its backing
page, which nobody sees any more. -/
theorem not_allStates_shows : Machine.first.kernel.ScreenStart ∧
    ¬Transition.AllStates (Transition.track screenStep recordOutput) Shows
      (Machine.first.kernel, Machine.first.kernel.consoles)
      [.contextSwitch ⟨0, 0, 0⟩, .switchVid 1, .putc 97] := by
  refine ⟨screenStart_first, fun h => ?_⟩
  have hlast := ((h.2 _ rfl).2 _ rfl).2 _ rfl
  have hcell := (hlast 1).cell 0 (by decide)
  revert hcell
  decide +kernel

end Kernel

end MpOS
