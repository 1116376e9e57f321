import MpOS.Isolation

/-!
# Logical screens

The 4000 bytes a terminal shows are on the text page while it is visible, and on its
backing page otherwise. Switching terminals moves them and keeps them
(`switches_preserve`). Writing to a terminal through virtual page 184 has the same effect on
them in both places, where that page maps the one they are on (`putcs_agree`).
-/

namespace MpOS

namespace Kernel

/-! ## Switches -/

/-- A sequence of switches. -/
def switches (targets : List Terminal) (k : Kernel) : Kernel :=
  targets.foldl (fun k target => k.switchVid target) k

theorem switches_cons (target : Terminal) (targets : List Terminal) (k : Kernel) :
    k.switches (target :: targets) = (k.switchVid target).switches targets :=
  rfl

theorem pagesMapped_switchVid {k : Kernel} (hp : k.PagesMapped) (target : Terminal) :
    (k.switchVid target).PagesMapped :=
  hp.congr fun i _ => by rw [switchVid_pte]

/-- The rest of the text page is never copied. -/
theorem switchVid_ram_rest {k : Kernel} (hp : k.PagesMapped) (target : Terminal) {a : ℕ}
    (h₁ : 0xB8000 + 4000 ≤ a) (h₂ : a < 0xB9000) :
    (k.switchVid target).screen.ram a = k.screen.ram a := by
  rcases eq_or_ne target k.screen.visibleScreen with rfl | hne
  · rw [switchVid_self]
  · rw [switchVid_ram hp hne, if_neg (by omega), if_neg (by omega)]

/-- Every sequence of switches keeps what the terminals show and leaves its last target visible.
Where that is the terminal that was visible before, the text page is as it was. -/
theorem switches_preserve {k : Kernel} (hp : k.PagesMapped) (targets : List Terminal) :
    (∀ t, ∀ off < 4000, (k.switches targets).screenByte t off = k.screenByte t off) ∧
      (k.switches targets).screen.visibleScreen = targets.getLastD k.screen.visibleScreen ∧
      ((k.switches targets).screen.visibleScreen = k.screen.visibleScreen →
        ∀ a, 0xB8000 ≤ a → a < 0xB9000 → (k.switches targets).screen.ram a = k.screen.ram a) := by
  have hrun : (∀ t, ∀ off < 4000, (k.switches targets).screenByte t off = k.screenByte t off) ∧
      (k.switches targets).screen.visibleScreen = targets.getLastD k.screen.visibleScreen ∧
      ∀ a, 0xB8000 + 4000 ≤ a → a < 0xB9000 →
        (k.switches targets).screen.ram a = k.screen.ram a := by
    induction targets generalizing k with
    | nil => exact ⟨fun _ _ _ => rfl, rfl, fun _ _ _ => rfl⟩
    | cons target targets ih =>
      obtain ⟨hbyte, hlast, hrest⟩ := ih (pagesMapped_switchVid hp target)
      rw [switches_cons]
      refine ⟨fun t off hoff => ?_, ?_, fun a h₁ h₂ => ?_⟩
      · exact (hbyte t off hoff).trans (screenByte_switchVid hp target t hoff)
      · rw [hlast, switchVid_visibleScreen, List.getLastD_cons]
      · exact (hrest a h₁ h₂).trans (switchVid_ram_rest hp target h₁ h₂)
  obtain ⟨hbyte, hlast, hrest⟩ := hrun
  refine ⟨hbyte, hlast, fun hback a h₁ h₂ => ?_⟩
  rcases Nat.lt_or_ge a (0xB8000 + 4000) with hlt | hge
  · have hshown := hbyte k.screen.visibleScreen (a - 0xB8000) (by omega)
    rw [screenByte, screenByte, screenPage, screenPage, if_pos hback.symm, if_pos rfl,
      Nat.add_sub_cancel' h₁] at hshown
    exact hshown
  · exact hrest a hge h₂

theorem pagesMapped_initPaging (k : Kernel) : k.initPaging.PagesMapped :=
  (pagesMapped_of_pte rfl).1

theorem switches_preserve_zero :
    (zero.initPaging.switches [1, 0]).screen.visibleScreen = 0 :=
  (switches_preserve (pagesMapped_initPaging zero) [1, 0]).2.1

/-! ## Foreground and background output -/

/-- Write a string with `putc`. -/
def putcs (cs : List Byte) (k : Kernel) : Kernel :=
  cs.foldl (fun k c => k.putc c) k

theorem putcs_cons (c : Byte) (cs : List Byte) (k : Kernel) :
    k.putcs (c :: cs) = (k.putc c).putcs cs :=
  rfl

/-- What a terminal of its own does with a string. -/
def feeds (cs : List Byte) (s : TextConsole Cell) : TextConsole Cell :=
  cs.foldl (fun s c => feed c s) s

theorem same_feeds {s s' : TextConsole Cell} (h : TextConsole.Same 80 25 s s') (cs : List Byte) :
    TextConsole.Same 80 25 (feeds cs s) (feeds cs s') := by
  induction cs generalizing s s' with
  | nil => exact h
  | cons c cs ih => exact ih (same_feed h c)

/-- A string written where virtual page 184 maps the terminal's page reaches the terminal as it
would a terminal of its own, and nothing else. -/
theorem putcs_spec {k : Kernel} (hp : k.PagesMapped)
    (hfresh : k.phys videoMem = k.screenPage k.proc.scheduleIndex)
    (hb : (k.consoles k.proc.scheduleIndex).InBounds 80 25) (cs : List Byte) :
    TextConsole.Same 80 25 ((k.putcs cs).consoles k.proc.scheduleIndex)
        (feeds cs (k.consoles k.proc.scheduleIndex)) ∧
      OnlyPage (k.screenPage k.proc.scheduleIndex) k.proc.scheduleIndex k (k.putcs cs) := by
  induction cs generalizing k with
  | nil => exact ⟨.refl _, .refl _ _ _⟩
  | cons c cs ih =>
    obtain ⟨hself, honly⟩ := putc_spec hp hb (Or.inl hfresh : OutputOk k (.putc c))
    have hproc : (k.putc c).proc.scheduleIndex = k.proc.scheduleIndex :=
      congrArg Processes.scheduleIndex honly.onlyScreen.proc
    have hpage : (k.putc c).screenPage = k.screenPage := by
      funext t
      rw [screenPage, screenPage, honly.onlyScreen.visibleScreen]
    have hfresh' : (k.putc c).phys videoMem = (k.putc c).screenPage (k.putc c).proc.scheduleIndex :=
      fresh_step hfresh (fun _ h => ScreenEvent.noConfusion h)
        (rfl : k.screenStep (.putc c) = some (k.putc c))
    have hmapped : (k.putc c).PagesMapped := hp.screenStep (e := .putc c) rfl
    have hconsole : (k.putc c).consoles k.proc.scheduleIndex =
        (k.putc c).console (k.screenPage k.proc.scheduleIndex) k.proc.scheduleIndex := by
      rw [consoles, hpage]
    rw [← hconsole] at hself
    have hnext := ih hmapped hfresh' (by
      rw [hproc]
      exact hself.symm.inBounds (inBounds_feed hb c))
    rw [hproc, hpage] at hnext
    rw [putcs_cons]
    exact ⟨hnext.1.trans (same_feeds hself cs), honly.trans hnext.2⟩

/-- The screens of the other terminals lie elsewhere. -/
theorem OnlyPage.screenByte {k k' : Kernel} {t t' : Terminal}
    (h : OnlyPage (k.screenPage t) t k k') (ht : t' ≠ t) {off : ℕ} (hoff : off < 4000) :
    k'.screenByte t' off = k.screenByte t' off := by
  have hpage : k'.screenPage t' = k.screenPage t' := by
    rw [screenPage, screenPage, h.onlyScreen.visibleScreen]
  have hapart := k.screenPage_apart ht
  rw [Kernel.screenByte, Kernel.screenByte, hpage, h.ram _ (by omega)]

theorem phys_mapScreenBuffer (k : Kernel) :
    (k.mapScreenBuffer 0).phys videoMem = 0xB8000 ∧
      ∀ t : Terminal, (k.mapScreenBuffer (1 + t.word)).phys videoMem = 0xB9000 + 0x1000 * t := by
  have hword : ∀ t : Terminal, ¬1 + t.word > 3 := by decide
  have hpage : ∀ t : Terminal, pageOf ((videoOffset + fourKb * (1 + t.word)) ||| 3) =
      0xB9000 + 0x1000 * (t : ℕ) := by
    decide
  have hpte : ∀ idx : Word, ¬idx > 3 → (k.mapScreenBuffer idx).paging.pte videoMemory =
      (videoOffset + fourKb * idx) ||| 3 := by
    intro idx h
    rw [mapScreenBuffer, if_neg h]
    exact Function.update_self videoMemory _ k.paging.pte
  refine ⟨?_, fun t => ?_⟩
  · rw [phys_videoMem, hpte _ (by decide)]
    decide
  · rw [phys_videoMem, hpte _ (hword t), hpage]

theorem pagesMapped_mapScreenBuffer {k : Kernel} (hp : k.PagesMapped) (idx : Word) :
    (k.mapScreenBuffer idx).PagesMapped := by
  refine hp.congr fun i hi => ?_
  unfold mapScreenBuffer
  split_ifs
  · rfl
  · exact Function.update_of_ne hi _ _

theorem screenByte_mapScreenBuffer (k : Kernel) (idx : Word) :
    (k.mapScreenBuffer idx).screenByte = k.screenByte := by
  unfold mapScreenBuffer
  split_ifs <;> rfl

/-- A string written by the scheduled terminal under the mapping `context_switch` makes for it. -/
theorem putcs_mapped {k : Kernel} (hp : k.PagesMapped) {t : Terminal}
    (ht : k.proc.scheduleIndex = t) (hb : k.screen.screenX t < 80 ∧ k.screen.screenY t < 25)
    {idx : Word} (hidx : (k.mapScreenBuffer idx).phys videoMem = k.screenPage t) (cs : List Byte) :
    TextConsole.Same 80 25 (((k.mapScreenBuffer idx).putcs cs).consoles t)
        (feeds cs (k.consoles t)) ∧
      ∀ t', t' ≠ t → ∀ off < 4000,
        ((k.mapScreenBuffer idx).putcs cs).screenByte t' off = k.screenByte t' off := by
  have hscreen := k.mapScreenBuffer_screen idx
  have hproc := k.mapScreenBuffer_proc idx
  have hpage : (k.mapScreenBuffer idx).screenPage = k.screenPage := by
    funext t'
    rw [screenPage, screenPage, hscreen]
  have hconsole : (k.mapScreenBuffer idx).consoles = k.consoles := by
    funext t'
    simp only [consoles, console, hpage, hscreen]
  obtain ⟨hself, honly⟩ := putcs_spec (pagesMapped_mapScreenBuffer hp idx)
    (by rw [hproc, ht, hpage, hidx]) (by rw [hproc, ht, hconsole]; exact ⟨hb.1, hb.2⟩) cs
  rw [hproc, ht] at hself honly
  rw [hconsole] at hself
  refine ⟨hself, fun t' ht' off hoff => ?_⟩
  rw [honly.screenByte ht' hoff, screenByte_mapScreenBuffer]

/-- The two paths of `putc` agree : a string written while the terminal is visible and one
written while it is hidden give it the same screen and the same cursor, and leave the
screens of the others alone. -/
theorem putcs_agree {k k' : Kernel} (hp : k.PagesMapped) (hp' : k'.PagesMapped) {t : Terminal}
    (ht : k.proc.scheduleIndex = t) (ht' : k'.proc.scheduleIndex = t)
    (hvisible : k.screen.visibleScreen = t) (hhidden : k'.screen.visibleScreen ≠ t)
    (hb : k.screen.screenX t < 80 ∧ k.screen.screenY t < 25)
    (hsame : (∀ off < 4000, k'.screenByte t off = k.screenByte t off) ∧
      k'.screen.screenX t = k.screen.screenX t ∧ k'.screen.screenY t = k.screen.screenY t)
    (cs : List Byte) :
    ((∀ off < 4000, ((k'.mapScreenBuffer (1 + t.word)).putcs cs).screenByte t off =
          ((k.mapScreenBuffer 0).putcs cs).screenByte t off) ∧
        ((k'.mapScreenBuffer (1 + t.word)).putcs cs).screen.screenX t =
          ((k.mapScreenBuffer 0).putcs cs).screen.screenX t ∧
        ((k'.mapScreenBuffer (1 + t.word)).putcs cs).screen.screenY t =
          ((k.mapScreenBuffer 0).putcs cs).screen.screenY t) ∧
      ∀ t', t' ≠ t → ∀ off < 4000,
        ((k.mapScreenBuffer 0).putcs cs).screenByte t' off = k.screenByte t' off ∧
          ((k'.mapScreenBuffer (1 + t.word)).putcs cs).screenByte t' off =
            k'.screenByte t' off := by
  have hfront : (k.mapScreenBuffer 0).phys videoMem = k.screenPage t := by
    rw [k.phys_mapScreenBuffer.1, screenPage, if_pos hvisible.symm]
  have hback : (k'.mapScreenBuffer (1 + t.word)).phys videoMem = k'.screenPage t := by
    rw [k'.phys_mapScreenBuffer.2 t, screenPage, if_neg hhidden.symm]
  have hb' : k'.screen.screenX t < 80 ∧ k'.screen.screenY t < 25 := by
    rw [hsame.2.1, hsame.2.2]
    exact hb
  obtain ⟨hfrontSelf, hfrontOther⟩ := putcs_mapped hp ht hb hfront cs
  obtain ⟨hbackSelf, hbackOther⟩ := putcs_mapped hp' ht' hb' hback cs
  have hfeeds := same_feeds (same_consoles_iff.2 hsame) cs
  refine ⟨same_consoles_iff.1 (hbackSelf.trans (hfeeds.trans hfrontSelf.symm)), ?_⟩
  exact fun t' hne off hoff => ⟨hfrontOther t' hne off hoff, hbackOther t' hne off hoff⟩

/-- The first terminal prints, visible and behind the second. -/
theorem putcs_agree_zero :
    ((((zero.initPaging.switchVid 1).mapScreenBuffer (1 + (0 : Terminal).word)).putcs
        [97, 10, 98]).screenByte 0 160) =
      ((zero.initPaging.mapScreenBuffer 0).putcs [97, 10, 98]).screenByte 0 160 :=
  have hp := pagesMapped_initPaging zero
  (putcs_agree hp (pagesMapped_switchVid hp 1) rfl rfl rfl (by decide) (by decide)
    ⟨fun _ hoff => screenByte_switchVid hp 1 0 hoff, rfl, rfl⟩ [97, 10, 98]).1.1 160 (by decide)

end Kernel

end MpOS
