import MpOS.CursorBounds
import MpOS.LineBuffer
import MpOS.Modifiers

/-!
# Line editing

What a terminal shows of the line that is typed on it. The handler stores a key in the
line buffer and writes it on the screen, and backspace takes it off both, each by code
of its own : `putc_keyboard` wraps at the right margin and scrolls, `delete_char` goes
back over the margin. The line is never longer than 127 characters, so no scroll moves
it off the screen, and it stands right before the cursor (`Echoed`). `countScrolls` is
the number of rows the screen has moved up.

Other terminals may print meanwhile. They are hidden, and reach their own pages only.
-/

namespace MpOS

open Transition

instance (c : Byte) (s : TextConsole Cell) : Decidable (Scrolls c s) :=
  inferInstanceAs (Decidable (_ ∧ _))

namespace Kernel

/-! ## Keys -/

/-- Codes that neither switch terminals nor clear the screen. -/
def StaysOnLine (k : Kernel) (code : Byte) : Prop :=
  k.altTarget code = none ∧ ¬(k.keyboard.keyFlag = 1 ∧ code = lPress)

instance (k : Kernel) (code : Byte) : Decidable (k.StaysOnLine code) :=
  inferInstanceAs (Decidable (_ ∧ _))

/-- Of those only backspace touches the screen in `getScancode`. -/
theorem screen_getScancode {k : Kernel} {code : Byte} (h : k.StaysOnLine code)
    (hd : code ≠ deletePress) :
    (k.getScancode code).2.screen = k.screen ∧ (k.getScancode code).2.paging = k.paging := by
  obtain ⟨halt, hclear⟩ := h
  unfold altTarget at halt
  split_ifs at halt with h1 h2 h3
  simp only [getScancode, if_neg h1, if_neg h2, if_neg h3, if_neg hclear, if_neg hd]
  refine ⟨?_, ?_⟩
  · simp only [apply_ite Prod.snd, apply_ite Kernel.screen, setKeyStatus, setKeyFlag,
      setTerminalFlag, ite_self]
  · simp only [apply_ite Prod.snd, apply_ite Kernel.paging, setKeyStatus, setKeyFlag,
      setTerminalFlag, ite_self]

/-- A code with a character changes nothing before the character is stored. -/
theorem getchar_of_ne_zero {k : Kernel} {code : Byte} (h : k.keyChar code ≠ 0) :
    (k.getchar code).2 = k := by
  rcases k.getScancode_passes code with ⟨k', hscan⟩ | hscan
  · exact absurd ((getchar_eq hscan).trans (keyPos_zero _)) h
  · rw [getchar, hscan]

/-- No key types a carriage return. -/
theorem keyChar_ne_return (k : Kernel) (code : Byte) : k.keyChar code ≠ 13 := by
  have hkeys : ∀ row, (keyPos.getD row []).all (· != 13) = true := by
    intro row
    match row with
    | 0 | 1 | 2 | 3 => decide
    | n + 4 => rfl
  have hget : ∀ (row : List Byte) (i : ℕ), row.all (· != 13) = true → row.getD i 0 ≠ 13 := by
    intro row i hrow
    rcases Nat.lt_or_ge i row.length with hlt | hge
    · rw [List.getD_eq_getElem row 0 hlt]
      exact bne_iff_ne.1 (List.all_eq_true.1 hrow _ (List.getElem_mem hlt))
    · rw [List.getD_eq_default row 0 hge]
      decide
  exact hget _ _ (hkeys _)

theorem screen_storeKey (c : Byte) (k : Kernel) :
    (k.storeKey c).screen = (k.putcKeyboard c).screen := by
  rcases terminal_cases k.screen.visibleScreen with hv | hv | hv <;>
    simp [storeKey, hv, setLine1, setLine2, setLine3]

theorem screen_deleteKey {k : Kernel} (hc : 0 < k.counter k.screen.visibleScreen) :
    k.deleteKey.screen = k.deleteChar.screen := by
  rcases terminal_cases k.screen.visibleScreen with hv | hv | hv <;>
    simp_all [deleteKey, counter, setLine1, setLine2, setLine3]

theorem screen_finishKey (c : Byte) (k : Kernel) :
    (k.finishKey c).screen = if c = 0 then k.screen else (k.putcKeyboard c).screen := by
  rw [← screen_storeKey]
  simp only [finishKey, apply_ite Kernel.screen, setFlagKeyboard, ite_self]

/-! ## The visible terminal -/

variable {k : Kernel}

theorem consoles_congr {k k' : Kernel} (h : k'.screen = k.screen) : k'.consoles = k.consoles := by
  funext t
  simp only [consoles, console, screenPage, h]

/-- Echo is what a console does. -/
theorem same_putcKeyboard (hp : k.PagesMapped) {t : Terminal} (hv : k.screen.visibleScreen = t)
    (hb : (k.consoles t).InBounds 80 25) (c : Byte) :
    TextConsole.Same 80 25 ((k.putcKeyboard c).consoles t) (feed c (k.consoles t)) := by
  subst hv
  have hpage : (k.putcKeyboard c).screenPage = k.screenPage := by
    funext t
    rw [screenPage, screenPage, (onlyScreen_putcKeyboard c k).visibleScreen]
  rw [consoles, hpage]
  exact (putcKeyboard_spec hp hb c).1

/-- `delete_char` on a line that is not empty. The attribute it stores is not that of the
character it deletes but of the cell behind. -/
theorem deleteChar_eq (hp : k.PagesMapped) {t : Terminal} (hv : k.screen.visibleScreen = t)
    {x y : ℕ} (hx : k.screen.screenX t = x) (hy : k.screen.screenY t = y) (hpos : 0 < 80 * y + x)
    (hlt : 80 * y + x < 2000) (hc : 0 < k.counter t) :
    k.deleteChar = (k.withRam (Function.update
      (Function.update k.screen.ram (0xB8000 + 2 * (80 * y + x - 1)) 32)
      (0xB8000 + (2 * (80 * y + x) + 1)) attrib)).setCursor t
        (if x = 0 then 80 - 1 else x - 1) (if x = 0 then y - 1 else y) := by
  subst hv hx hy
  have hmod : keyVideoMem % 4096 = 0 := by decide
  have hchar := store_withRam k k.screen.ram hmod (by omega :
    2 * (80 * k.screen.screenY k.screen.visibleScreen +
      k.screen.screenX k.screen.visibleScreen - 1) < 4096) 32
  change k.store _ _ = _ at hchar
  have h0 : ¬(k.screen.screenX k.screen.visibleScreen = 0 ∧
      k.screen.screenY k.screen.visibleScreen = 0) := by
    omega
  simp only [deleteChar, numCols, if_neg h0, if_neg hc.ne']
  rw [hchar, Nat.add_assoc keyVideoMem, store_withRam k _ hmod (by omega), hp.key]
  split_ifs <;> rfl

theorem back_deleteChar (hp : k.PagesMapped) {t : Terminal} (hv : k.screen.visibleScreen = t)
    (hb : (k.consoles t).InBounds 80 25) (hpos : 0 < (k.consoles t).pos 80)
    (hc : 0 < k.counter t) :
    TextConsole.Back 80 (k.consoles t) (k.deleteChar.consoles t) := by
  have hlt := hb.pos_lt
  have hpage : k.deleteChar.screenPage t = 0xB8000 := by
    rw [screenPage, (onlyScreen_deleteChar k).visibleScreen, if_pos hv.symm]
  have hpage' : k.screenPage t = 0xB8000 := if_pos hv.symm
  rw [consoles, consoles, hpage, hpage', deleteChar_eq hp hv rfl rfl hpos hlt hc]
  refine ⟨Function.update_self _ _ _, Function.update_self _ _ _, fun n hn => ?_⟩
  change n + 1 < 80 * k.screen.screenY t + k.screen.screenX t at hn
  simp only [console, setCursor, withRam]
  rw [Function.update_of_ne (by omega), Function.update_of_ne (by omega),
    Function.update_of_ne (by omega), Function.update_of_ne (by omega)]

/-! ## Runs -/

/-- Keys, and what the other terminals and the scheduler do meanwhile. -/
inductive TypingEvent
  | key (code : Byte)
  | putc (c : Byte)
  | contextSwitch (frame : SwitchFrame)

/-- One step. -/
def typingStep (k : Kernel) : TypingEvent → Option Kernel
  | .key code => some (k.interruptKeyboard code)
  | .putc c => some (k.putc c)
  | .contextSwitch frame => some (k.contextSwitch frame)

/-- Keys that edit the line : no newline, and no character where 127 are pending. Whoever prints
meanwhile is hidden. -/
def Typing (k : Kernel) : TypingEvent → Prop
  | .key code => k.StaysOnLine code ∧ k.keyChar code ≠ 10 ∧
      (k.keyChar code ≠ 0 → k.counter k.screen.visibleScreen < termbufSize)
  | .putc _ => k.proc.scheduleIndex ≠ k.screen.visibleScreen
  | .contextSwitch _ => True

instance (k : Kernel) : (e : TypingEvent) → Decidable (k.Typing e)
  | .key _ => inferInstanceAs (Decidable (_ ∧ _ ∧ _))
  | .putc _ => inferInstanceAs (Decidable (_ ≠ _))
  | .contextSwitch _ => inferInstanceAs (Decidable True)

/-- The number of times the echo has scrolled the screen. -/
def countScrolls (k : Kernel) (e : TypingEvent) (s : ℕ) : ℕ :=
  match e with
  | .key code => if Scrolls (k.keyChar code) (k.consoles k.screen.visibleScreen) then s + 1 else s
  | _ => s

/-- The characters of the line buffer are those in the cells before the cursor, and the cursor is
as far from the start of the line as the line is long, but for the rows scrolled. -/
structure Echoed (t : Terminal) (start : ℕ) (p : Kernel × ℕ) : Prop where
  cursor : 80 * (p.1.screen.screenY t + p.2) + p.1.screen.screenX t = start + p.1.counter t
  le : p.1.counter t ≤ 80 * p.1.screen.screenY t + p.1.screen.screenX t
  cell : ∀ i < p.1.counter t, p.1.screenByte t
    (2 * (80 * p.1.screen.screenY t + p.1.screen.screenX t - p.1.counter t + i)) =
      p.1.lineBuffer t i

/-- What carries a run. -/
structure LineInv (t : Terminal) (start : ℕ) (p : Kernel × ℕ) : Prop where
  mapped : p.1.PagesMapped
  visible : p.1.screen.visibleScreen = t
  onScreen : p.1.OnScreen
  counter : p.1.counter t ≤ termbufSize
  pos : (p.1.consoles t).pos 80 + 80 * p.2 = start + p.1.counter t
  line : (p.1.consoles t).EndsWith 80 (fun i => (p.1.lineBuffer t i, attrib)) (p.1.counter t)

theorem OnScreen.inBounds (h : k.OnScreen) (t : Terminal) : (k.consoles t).InBounds 80 25 :=
  ⟨h.x t, h.y t⟩

theorem OnScreen.congr (h : k.OnScreen) {k' : Kernel} (hs : k'.screen = k.screen) : k'.OnScreen :=
  SameCursors.onScreen ⟨by rw [hs], by rw [hs]⟩ h

namespace LineInv

variable {t : Terminal} {start s : ℕ}

theorem echoed {p : Kernel × ℕ} (h : LineInv t start p) : Echoed t start p where
  cursor := by
    have hpos : 80 * p.1.screen.screenY t + p.1.screen.screenX t + 80 * p.2 =
        start + p.1.counter t := h.pos
    omega
  le := h.line.le
  cell i hi := congrArg Prod.fst (h.line.cell i hi)

/-- Steps that change neither the visible console nor its line. -/
theorem of_same (h : LineInv t start (k, s)) {k' : Kernel} (hm : k'.PagesMapped)
    (hv : k'.screen.visibleScreen = t) (ho : k'.OnScreen)
    (hc : TextConsole.Same 80 25 (k.consoles t) (k'.consoles t))
    (hbuf : k'.lineBuffer = k.lineBuffer) (hn : k'.counter = k.counter) :
    LineInv t start (k', s) := by
  refine ⟨hm, hv, ho, ?_, ?_, ?_⟩
  · rw [hn]
    exact h.counter
  · rw [hn, hc.pos]
    exact h.pos
  · rw [hn, hbuf]
    exact hc.endsWith (h.onScreen.inBounds t) h.line

/-- A character. -/
theorem storeKey (h : LineInv t start (k, s)) {c : Byte} (h0 : c ≠ 0) (hnl : ¬(c = 10 ∨ c = 13))
    (hc : k.counter t < termbufSize) :
    LineInv t start (k.storeKey c, if Scrolls c (k.consoles t) then s + 1 else s) := by
  have hm : k.PagesMapped := h.mapped
  have hv : k.screen.visibleScreen = t := h.visible
  have hb : (k.consoles t).InBounds 80 25 := h.onScreen.inBounds t
  have hstart : (k.consoles t).pos 80 + 80 * s = start + k.counter t := h.pos
  have hroom : k.counter t < 80 * (25 - 1) := hc.trans (by decide)
  have hdev := onlyDevices_storeKey c k
  have hscreen := screen_storeKey c k
  obtain ⟨hbuf, hn, -⟩ := k.lineBuffer_storeKey c
  have hsame := same_putcKeyboard hm hv hb c
  have hfeed : feed c (k.consoles t) = (k.consoles t).put 80 25 blankCell (c, attrib) := by
    rw [feed, if_neg h0, if_neg hnl]
  have hscrolls : Scrolls c (k.consoles t) ↔ (k.consoles t).Leaves 80 25 := by
    rw [Scrolls, if_neg hnl]
    exact and_iff_right h0
  rw [hfeed, ← consoles_congr hscreen] at hsame
  have hpos := TextConsole.pos_put blankCell hb (c, attrib)
  have hline := h.line.put blankCell hb hroom (c, attrib)
  have hfed : ((k.consoles t).put 80 25 blankCell (c, attrib)).InBounds 80 25 := hb.put _
  rw [hv] at hbuf hn
  have hcount : (k.storeKey c).counter t = k.counter t + 1 := by
    rw [hn, Function.update_self]
  refine ⟨hm.congr fun _ _ => by rw [hdev.paging], hdev.visibleScreen.trans hv, ?_, ?_, ?_, ?_⟩
  · have hk : (k.putcKeyboard c).OnScreen :=
      onScreen_putChar (fun k => sameCursors_scrollPage k _ _) h.onScreen _ _ c
    exact hk.congr hscreen
  · rw [hcount]
    exact hc
  · simp only [hcount, hscrolls, ← hsame.symm.pos] at hpos ⊢
    split_ifs at hpos ⊢ <;> omega
  · rw [hcount]
    refine (hsame.symm.endsWith hfed hline).congr fun i hi => ?_
    simp only [hbuf, Function.update_self]
    rcases eq_or_ne i (k.counter t) with rfl | hne
    · rw [Function.update_self, Function.update_self]
    · rw [Function.update_of_ne hne, Function.update_of_ne hne]

/-- Backspace. -/
theorem deleteKey (h : LineInv t start (k, s)) : LineInv t start (k.deleteKey, s) := by
  have hm : k.PagesMapped := h.mapped
  have hv : k.screen.visibleScreen = t := h.visible
  rcases Nat.eq_zero_or_pos (k.counter t) with hc | hc
  · rw [deleteKey_of_empty k (hv ▸ hc)]
    exact h
  have hb : (k.consoles t).InBounds 80 25 := h.onScreen.inBounds t
  have hstart : (k.consoles t).pos 80 + 80 * s = start + k.counter t := h.pos
  have hle : k.counter t ≤ (k.consoles t).pos 80 := h.line.le
  have hdev := onlyDevices_deleteKey k
  have hscreen := screen_deleteKey (hv.symm ▸ hc)
  obtain ⟨hbuf, hn⟩ := k.lineBuffer_deleteKey (hv.symm ▸ hc)
  rw [hv] at hbuf hn
  have hcount : k.deleteKey.counter t = k.counter t - 1 := by
    rw [hn, Function.update_self]
  have hback := back_deleteChar hm hv hb (hc.trans_le hle) hc
  rw [← consoles_congr hscreen] at hback
  have hpos := hback.pos hb (hc.trans_le hle)
  refine ⟨hm.congr fun _ _ => by rw [hdev.paging], hdev.visibleScreen.trans hv, ?_, ?_, ?_, ?_⟩
  · exact (onScreen_deleteChar h.onScreen).congr hscreen
  · rw [hcount]
    exact (Nat.sub_le _ _).trans h.counter
  · simp only [hcount]
    omega
  · have hline : (k.consoles t).EndsWith 80 (fun i => (k.lineBuffer t i, attrib))
        (k.counter t - 1 + 1) := by
      rw [Nat.sub_add_cancel hc]
      exact h.line
    rw [hcount]
    refine (hline.back hback hb).congr fun i hi => ?_
    simp only [hbuf, Function.update_self]
    rw [Function.update_of_ne hi.ne]

/-- What follows `getchar` in the handler changes the screen and the lines only by the character. -/
theorem finishKey (h : LineInv t start (k, s)) {c : Byte} (hnl : ¬(c = 10 ∨ c = 13))
    (hc : c ≠ 0 → k.counter t < termbufSize) :
    LineInv t start (k.finishKey c, if Scrolls c (k.consoles t) then s + 1 else s) := by
  have hstored : LineInv t start (if c = 0 then k else k.storeKey c,
      if Scrolls c (k.consoles t) then s + 1 else s) := by
    by_cases h0 : c = 0
    · rw [if_pos h0, if_neg fun hscroll => hscroll.1 h0]
      exact h
    · rw [if_neg h0]
      exact h.storeKey h0 hnl (hc h0)
  simp only [Kernel.finishKey]
  generalize (if c = 0 then k else k.storeKey c) = k₁ at hstored ⊢
  generalize (if Scrolls c (k.consoles t) then s + 1 else s) = s₁ at hstored ⊢
  split
  · exact hstored.of_same (hstored.mapped.congr fun _ _ => rfl) hstored.visible
      (hstored.onScreen.congr rfl) (.refl _) rfl rfl
  · exact hstored

/-- A key. -/
theorem key (h : LineInv t start (k, s)) {code : Byte} (hk : k.Typing (.key code)) :
    LineInv t start (k.interruptKeyboard code, k.countScrolls (.key code) s) := by
  have hv : k.screen.visibleScreen = t := h.visible
  obtain ⟨hstays, hnl, hroom⟩ := hk
  rw [hv] at hroom
  have hreturn : ¬(k.keyChar code = 10 ∨ k.keyChar code = 13) :=
    fun hc => hc.elim hnl (k.keyChar_ne_return code)
  rw [interruptKeyboard_eq, countScrolls, hv]
  by_cases h0 : k.keyChar code = 0
  · -- no character : what there is to do is done by `getchar`
    have hgot : LineInv t start ((k.getchar code).2, s) := by
      obtain ⟨-, -, hdel, hkeep⟩ := k.getchar_lines code
      by_cases hd : code = deletePress
      · rw [(hdel hd).2]
        exact h.deleteKey
      · obtain ⟨hscreen, hpaging⟩ := screen_getScancode hstays hd
        have hsame : (k.getchar code).2.screen = k.screen := hscreen
        refine h.of_same (h.mapped.congr fun _ _ => congrArg (Paging.pte · _) hpaging)
          (by rw [hsame]; exact hv) (h.onScreen.congr hsame) ?_ (hkeep hd).lineBuffer
          (hkeep hd).counter
        rw [consoles_congr hsame]
        exact .refl _
    have hfinish := hgot.finishKey hreturn fun hne => absurd h0 hne
    rw [if_neg fun hscroll => hscroll.1 h0] at hfinish ⊢
    exact hfinish
  · have hfinish := h.finishKey hreturn hroom
    rw [getchar_of_ne_zero h0]
    exact hfinish

theorem step {p p' : Kernel × ℕ} {e : TypingEvent} (h : LineInv t start p) (he : p.1.Typing e)
    (hs : track typingStep countScrolls p e = some p') : LineInv t start p' := by
  obtain ⟨k, s⟩ := p
  obtain ⟨k', s'⟩ := p'
  obtain ⟨hstep, rfl⟩ := track_eq_some_iff.1 hs
  have hv : k.screen.visibleScreen = t := h.visible
  cases e with
  | key code =>
    obtain rfl := Option.some.inj hstep
    exact h.key he
  | putc c =>
    obtain rfl := Option.some.inj hstep
    have hidden : k.proc.scheduleIndex ≠ k.screen.visibleScreen := he
    have honly := onlyPage_putc h.mapped hidden (h.onScreen.inBounds _) c
    have hvis := honly.onlyScreen.visibleScreen
    have hlines := SameLines.of_eq honly.onlyScreen.keyboard
    refine h.of_same (h.mapped.screenStep (e := .putc c) rfl) (hvis.trans hv)
      (onScreen_putChar (fun k => sameCursors_scrollPage k _ _) h.onScreen _ _ c) ?_
      hlines.lineBuffer hlines.counter
    have hpage : (k.putc c).screenPage t = k.screenPage t := by
      rw [screenPage, screenPage, hvis]
    have hne : t ≠ k.proc.scheduleIndex := fun heq => hidden (heq.symm.trans hv.symm)
    rw [consoles, consoles, hpage]
    exact (honly.console hne (k.screenPage_apart hne)).symm
  | contextSwitch frame =>
    obtain rfl := Option.some.inj hstep
    have hscreen := k.contextSwitch_screen frame
    have hlines := SameLines.of_eq (k.contextSwitch_keyboard frame)
    refine h.of_same (h.mapped.screenStep (e := .contextSwitch frame) rfl)
      (by rw [hscreen]; exact hv) (h.onScreen.congr hscreen) ?_ hlines.lineBuffer hlines.counter
    rw [consoles_congr hscreen]
    exact .refl _

end LineInv

/-- An empty line has nothing to delete. -/
theorem screen_backspace {k : Kernel} (h : k.counter k.screen.visibleScreen = 0) :
    (k.interruptKeyboard deletePress).screen = k.screen := by
  obtain ⟨-, -, hdel, -⟩ := k.getchar_lines deletePress
  obtain ⟨h0, hgot⟩ := hdel rfl
  have hchar : (k.getchar deletePress).1 = 0 := h0
  rw [interruptKeyboard_eq, hgot, hchar, screen_finishKey, if_pos rfl, deleteKey_of_empty k h]

/-- Characters and backspaces on the visible terminal, from an empty line and a cursor anywhere on
the screen : in every state the line stands right before the cursor, and the cursor is as
far from where it started as the line and the rows scrolled say. A backspace on an empty
line leaves the screen and the cursor as they are. -/
theorem lineEditing {k : Kernel} (hp : k.PagesMapped) (hb : k.OnScreen)
    (h0 : k.counter k.screen.visibleScreen = 0) {es : List TypingEvent}
    (hes : AllEvents typingStep Typing k es) :
    AllStates (track typingStep countScrolls)
        (Echoed k.screen.visibleScreen (80 * k.screen.screenY k.screen.visibleScreen +
          k.screen.screenX k.screen.visibleScreen)) (k, 0) es ∧
      ∀ k' : Kernel, k'.counter k'.screen.visibleScreen = 0 →
        (k'.interruptKeyboard deletePress).screen = k'.screen := by
  have hstart : LineInv k.screen.visibleScreen (80 * k.screen.screenY k.screen.visibleScreen +
      k.screen.screenX k.screen.visibleScreen) (k, 0) := by
    refine ⟨hp, rfl, hb, ?_, ?_, ?_⟩
    · rw [h0]
      exact Nat.zero_le _
    · rw [h0]
      rfl
    · rw [h0]
      exact ⟨Nat.zero_le _, fun i hi => absurd hi (Nat.not_lt_zero i)⟩
  have hall := (allEvents_track.2 hes).allStates (fun _ _ _ h he hs => h.step he hs) hstart
  exact ⟨hall.mono fun _ h => h.echoed, fun _ h => screen_backspace h⟩

/-- Two characters and a backspace, with a tick and a hidden terminal that prints in between. -/
theorem lineEditing_zero : AllStates (track typingStep countScrolls) (Echoed 0 0)
    (zero.initPaging, 0) [.key 0x1E, .contextSwitch ⟨0, 0, 0⟩, .putc 97, .key 0x30,
      .key deletePress] := by
  have hb : zero.initPaging.OnScreen := ⟨by decide, by decide⟩
  have hes : AllEvents typingStep Typing zero.initPaging [.key 0x1E, .contextSwitch ⟨0, 0, 0⟩,
      .putc 97, .key 0x30, .key deletePress] := by
    decide +kernel
  exact (lineEditing (pagesMapped_of_pte rfl).1 hb rfl hes).1

end Kernel

end MpOS
