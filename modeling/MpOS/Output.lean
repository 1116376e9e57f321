import MpOS.Frame
import MpOS.Lib.Loop
import MpOS.Lib.TextConsole

/-!
# Output as text consoles

`putc` and `putc_keyboard` are the same routine on different pages (`putChar`). Where the
page it stores to and the page it scrolls from are the page of the terminal, it is the
operation of a text console on that page, and touches nothing else (`console_putChar`).
The loops of the scroll routine copy cell by cell, each from a cell that the loop has not
reached yet, and so move the page up by one row (`scrollPage_eq`).
-/

namespace MpOS

namespace Kernel

/-! ## Pages -/

/-- Translation keeps the offset in the page. -/
theorem phys_add (k : Kernel) {base off : ℕ} (hb : base % 4096 = 0) (hoff : off < 4096) :
    k.phys (base + off) = k.phys base + off := by
  have hdiv : (base + off) / 4096 = base / 4096 := by omega
  rw [phys, phys, hdiv]
  omega

/-- A page is mapped to a page. -/
theorem phys_mod (k : Kernel) {base : ℕ} (hb : base % 4096 = 0) : k.phys base % 4096 = 0 := by
  rw [phys]
  omega

/-- The kernel with other contents of physical memory. -/
def withRam (k : Kernel) (ram : ℕ → Byte) : Kernel :=
  { k with screen := { k.screen with ram := ram } }

/-- A store into a page, as an update of physical memory. -/
theorem store_withRam (k : Kernel) (ram : ℕ → Byte) {base off : ℕ} (hb : base % 4096 = 0)
    (hoff : off < 4096) (b : Byte) :
    (k.withRam ram).store (base + off) b =
      k.withRam (Function.update ram (k.phys base + off) b) := by
  have hphys : (k.withRam ram).phys (base + off) = k.phys base + off := k.phys_add hb hoff
  rw [store, hphys]
  rfl

/-- A load out of a page. -/
theorem load_withRam (k : Kernel) (ram : ℕ → Byte) {base off : ℕ} (hb : base % 4096 = 0)
    (hoff : off < 4096) : (k.withRam ram).load (base + off) = ram (k.phys base + off) := by
  have hphys : (k.withRam ram).phys (base + off) = k.phys base + off := k.phys_add hb hoff
  rw [load, hphys]
  rfl

/-- A cell is a character and its attribute. -/
theorem storeCell_withRam (k : Kernel) (ram : ℕ → Byte) {base n : ℕ} (hb : base % 4096 = 0)
    (hn : n < 2000) (c : Byte) :
    (k.withRam ram).storeCell base n c = k.withRam (Function.update
      (Function.update ram (k.phys base + 2 * n) c) (k.phys base + 2 * n + 1) attrib) := by
  rw [storeCell, store_withRam k ram hb (by omega), Nat.add_assoc base,
    store_withRam k _ hb (by omega), ← Nat.add_assoc]

/-! ## The scroll loops -/

/-- Physical memory once `n` cells have been copied up from the page at `s` to the page at `d`. -/
def copiedUp (ram : ℕ → Byte) (d s n : ℕ) (a : ℕ) : Byte :=
  if d ≤ a ∧ a < d + 2 * n then ram (s + (a - d) + 160) else ram a

/-- Physical memory once the first `n` cells of the last row of the page at `d` are blank. -/
def blanked (ram : ℕ → Byte) (d n : ℕ) (a : ℕ) : Byte :=
  if d + 3840 ≤ a ∧ a < d + 3840 + 2 * n then (if (a - d) % 2 = 0 then 0 else attrib) else ram a

/-- One more cell of the scroll. -/
theorem scrollCell_withRam (k : Kernel) (ram : ℕ → Byte) {dest src n : ℕ} (hd : dest % 4096 = 0)
    (hs : src % 4096 = 0) (hn : n < 1920) :
    (k.withRam (copiedUp ram (k.phys dest) (k.phys src) n)).scrollCell dest src n =
      k.withRam (copiedUp ram (k.phys dest) (k.phys src) (n + 1)) := by
  have hdm := k.phys_mod hd
  have hsm := k.phys_mod hs
  have hcols : n + numCols = n + 80 := rfl
  simp only [scrollCell, hcols]
  rw [load_withRam k _ hs (by omega), store_withRam k _ hd (by omega), Nat.add_assoc src,
    load_withRam k _ hs (by omega), Nat.add_assoc dest, store_withRam k _ hd (by omega)]
  generalize k.phys dest = d at hdm ⊢
  generalize k.phys src = s at hsm ⊢
  refine congrArg k.withRam (funext fun a => ?_)
  -- the cells read lie behind those written so far
  have hread : ∀ off, 2 * n < off → off < 4096 → copiedUp ram d s n (s + off) = ram (s + off) := by
    intro off h₁ h₂
    exact if_neg (by omega)
  have hodd : s + (2 * (n + 80) + 1) ≠ d + 2 * n := by omega
  rw [Function.update_of_ne hodd, hread _ (by omega) (by omega), hread _ (by omega) (by omega)]
  rcases eq_or_ne a (d + (2 * n + 1)) with rfl | h₁
  · rw [Function.update_self, copiedUp, if_pos (by omega)]
    congr 1
    omega
  · rw [Function.update_of_ne h₁]
    rcases eq_or_ne a (d + 2 * n) with rfl | h₂
    · rw [Function.update_self, copiedUp, if_pos (by omega)]
      congr 1
      omega
    · rw [Function.update_of_ne h₂]
      exact if_congr (by omega) rfl rfl

/-- One more cell of the line the scroll blanks. -/
theorem blankCell_withRam (k : Kernel) (ram : ℕ → Byte) {dest n : ℕ} (hd : dest % 4096 = 0)
    (hn : n < 80) :
    (k.withRam (blanked ram (k.phys dest) n)).storeCell dest (screenSize + n) 0 =
      k.withRam (blanked ram (k.phys dest) (n + 1)) := by
  have hdm := k.phys_mod hd
  have hsize : screenSize + n = 1920 + n := rfl
  rw [hsize, storeCell_withRam k _ hd (by omega)]
  generalize k.phys dest = d at hdm ⊢
  refine congrArg k.withRam (funext fun a => ?_)
  rcases eq_or_ne a (d + 2 * (1920 + n) + 1) with rfl | h₁
  · rw [Function.update_self, blanked, if_pos (by omega), if_neg (by omega)]
  · rw [Function.update_of_ne h₁]
    rcases eq_or_ne a (d + 2 * (1920 + n)) with rfl | h₂
    · rw [Function.update_self, blanked, if_pos (by omega), if_pos (by omega)]
    · rw [Function.update_of_ne h₂]
      exact if_congr (by omega) rfl rfl

/-- The scroll routines copy 24 rows up and blank the last one. -/
theorem scrollPage_eq (k : Kernel) {dest src : ℕ} (hd : dest % 4096 = 0) (hs : src % 4096 = 0) :
    k.scrollPage dest src =
      k.withRam (blanked (copiedUp k.screen.ram (k.phys dest) (k.phys src) 1920)
        (k.phys dest) 80) := by
  have hcopy := @Loop.grid_induction Kernel (fun k n => k.scrollCell dest src n)
    (fun n k' => k' = k.withRam (copiedUp k.screen.ram (k.phys dest) (k.phys src) n)) k 24 80 ?_ ?_
  · have hblank := @Loop.range_induction Kernel
      (fun k i => k.storeCell dest (screenSize + i) 0)
      (fun n k' => k' = k.withRam (blanked
        (copiedUp k.screen.ram (k.phys dest) (k.phys src) 1920) (k.phys dest) n))
      (k.withRam (copiedUp k.screen.ram (k.phys dest) (k.phys src) 1920)) 80 ?_ ?_
    · rw [scrollPage]
      simp only [numRows, numCols] at hcopy ⊢
      rw [hcopy]
      exact hblank
    · refine congrArg k.withRam (funext fun a => ?_)
      exact (if_neg (by omega)).symm
    · rintro n hn _ rfl
      exact blankCell_withRam k _ hd hn
  · refine (congrArg k.withRam (funext fun a => ?_) : k.withRam k.screen.ram = _)
    exact (if_neg (by omega)).symm
  · rintro n hn _ rfl
    exact scrollCell_withRam k _ hd hs hn

end Kernel

/-! ## Consoles -/

/-- A character and its attribute. -/
abbrev Cell :=
  Byte × Byte

/-- What scrolling leaves in the last row. -/
def blankCell : Cell :=
  (0, attrib)

/-- What a terminal of its own does with a character. -/
def feed (c : Byte) (s : TextConsole Cell) : TextConsole Cell :=
  if c = 0 then s
  else if c = 10 ∨ c = 13 then s.newline 80 25 blankCell
  else s.put 80 25 blankCell (c, attrib)

/-- The character takes the cursor out of the last row. -/
def Scrolls (c : Byte) (s : TextConsole Cell) : Prop :=
  c ≠ 0 ∧ (if c = 10 ∨ c = 13 then s.y + 1 else s.y + (s.x + 1) / 80) = 25

/-- Output keeps the abstract cursor on the screen. -/
theorem inBounds_feed {s : TextConsole Cell} (h : s.InBounds 80 25) (c : Byte) :
    (feed c s).InBounds 80 25 := by
  unfold feed
  split_ifs
  · exact h
  · exact h.newline
  · exact h.put _

/-- Screens that show the same show the same after a character. -/
theorem same_feed {s s' : TextConsole Cell} (h : TextConsole.Same 80 25 s s') (c : Byte) :
    TextConsole.Same 80 25 (feed c s) (feed c s') := by
  unfold feed
  split_ifs
  · exact h
  · exact h.newline
  · exact h.put _

namespace Kernel

/-- A physical page with the cursor of a terminal, as a console. -/
def console (k : Kernel) (page : ℕ) (t : Terminal) : TextConsole Cell where
  cell n := (k.screen.ram (page + 2 * n), k.screen.ram (page + 2 * n + 1))
  x := k.screen.screenX t
  y := k.screen.screenY t

/-- Only the screen in a physical page and the cursor of a terminal may have changed. -/
structure OnlyPage (page : ℕ) (t : Terminal) (k k' : Kernel) : Prop where
  onlyScreen : OnlyScreen k k'
  ram : ∀ a, a < page ∨ page + 4000 ≤ a → k'.screen.ram a = k.screen.ram a
  screenX : ∀ t', t' ≠ t → k'.screen.screenX t' = k.screen.screenX t'
  screenY : ∀ t', t' ≠ t → k'.screen.screenY t' = k.screen.screenY t'

namespace OnlyPage

variable {page : ℕ} {t : Terminal} {k k' k'' : Kernel}

theorem refl (page : ℕ) (t : Terminal) (k : Kernel) : OnlyPage page t k k :=
  ⟨.refl k, fun _ _ => rfl, fun _ _ => rfl, fun _ _ => rfl⟩

theorem trans (h : OnlyPage page t k k') (h' : OnlyPage page t k' k'') : OnlyPage page t k k'' where
  onlyScreen := h.onlyScreen.trans h'.onlyScreen
  ram a ha := (h'.ram a ha).trans (h.ram a ha)
  screenX t' ht := (h'.screenX t' ht).trans (h.screenX t' ht)
  screenY t' ht := (h'.screenY t' ht).trans (h.screenY t' ht)

/-- The cursor of the page's own terminal. -/
theorem setCursor (page : ℕ) (t : Terminal) (k : Kernel) (x y : ℕ) :
    OnlyPage page t k (k.setCursor t x y) :=
  ⟨onlyScreen_setCursor _ _ _ _, fun _ _ => rfl, fun _ ht => Function.update_of_ne ht _ _,
    fun _ ht => Function.update_of_ne ht _ _⟩

/-- Memory changed inside the page only. -/
theorem withRam {ram : ℕ → Byte}
    (h : ∀ a, a < page ∨ page + 4000 ≤ a → ram a = k.screen.ram a) :
    OnlyPage page t k (k.withRam ram) :=
  ⟨⟨rfl, rfl, rfl, rfl⟩, h, fun _ _ => rfl, fun _ _ => rfl⟩

/-- The consoles of the other terminals on other pages are as before. -/
theorem console (h : OnlyPage page t k k') {page' : ℕ} {t' : Terminal} (ht : t' ≠ t)
    (hp : page' + 4000 ≤ page ∨ page + 4000 ≤ page') :
    TextConsole.Same 80 25 (k'.console page' t') (k.console page' t') := by
  refine ⟨fun n hn => ?_, h.screenX t' ht, h.screenY t' ht⟩
  simp only [Kernel.console]
  rw [h.ram _ (by omega), h.ram _ (by omega)]

end OnlyPage

variable {k : Kernel} {t : Terminal} {mem src page : ℕ}

/-- The scroll routines store to one page only. -/
theorem onlyPage_scrollPage (hm : mem % 4096 = 0) (hs : src % 4096 = 0) (hmem : k.phys mem = page)
    (t : Terminal) : OnlyPage page t k (k.scrollPage mem src) := by
  rw [scrollPage_eq k hm hs, hmem]
  refine .withRam fun a ha => ?_
  rw [blanked, if_neg (by omega), copiedUp, if_neg (by omega)]

/-- They scroll the console on a page that they both store to and read from. -/
theorem console_scrollPage (hm : mem % 4096 = 0) (hs : src % 4096 = 0) (hmem : k.phys mem = page)
    (hsrc : k.phys src = page) {n : ℕ} (hn : n < 80 * 25) :
    ((k.scrollPage mem src).console page t).cell n =
      if n < 80 * 24 then (k.console page t).cell (n + 80) else blankCell := by
  rw [scrollPage_eq k hm hs, hmem, hsrc]
  simp only [console, withRam]
  split_ifs with hrow
  · have hup : ∀ off < 3840, blanked (copiedUp k.screen.ram page page 1920) page 80 (page + off) =
        k.screen.ram (page + off + 160) := by
      intro off hoff
      rw [blanked, if_neg (by omega), copiedUp, if_pos (by omega)]
      congr 1
      omega
    have hodd := hup (2 * n + 1) (by omega)
    rw [← Nat.add_assoc] at hodd
    rw [hup (2 * n) (by omega), hodd]
    refine Prod.ext (congrArg k.screen.ram ?_) (congrArg k.screen.ram ?_)
    · omega
    · omega
  · rw [blanked, if_pos (by omega), if_pos (by omega), blanked, if_pos (by omega),
      if_neg (by omega)]
    rfl

/-- The wrap, whose scroll is inside the page if there is one. -/
theorem onlyPage_wrapCursor (hm : mem % 4096 = 0) (hs : src % 4096 = 0)
    (hscroll : k.screen.screenY t = 25 → k.phys mem = page) :
    OnlyPage page t k (k.wrapCursor t fun k => k.scrollPage mem src) := by
  by_cases hy : k.screen.screenY t = 25
  · simp only [wrapCursor, numRows, numCols, hy, if_true]
    exact (onlyPage_scrollPage hm hs (hscroll hy) t).trans
      ((OnlyPage.setCursor _ _ _ _ _).trans (OnlyPage.setCursor _ _ _ _ _))
  · simp only [wrapCursor, numRows, numCols, hy, if_false]
    exact OnlyPage.setCursor _ _ _ _ _

/-- The end of the two routines is the end of an operation of a console. -/
theorem console_wrapCursor (hm : mem % 4096 = 0) (hs : src % 4096 = 0)
    (hscroll : k.screen.screenY t = 25 → k.phys mem = page ∧ k.phys src = page) :
    TextConsole.Same 80 25 ((k.wrapCursor t fun k => k.scrollPage mem src).console page t)
      (({ k.console page t with x := k.screen.screenX t % 80 } : TextConsole Cell).settle 80 25
        blankCell) := by
  by_cases hy : k.screen.screenY t = 25
  · obtain ⟨hmem, hsrc⟩ := hscroll hy
    have hcell := fun n hn => @console_scrollPage k t mem src page hm hs hmem hsrc n hn
    have hcursor : (k.scrollPage mem src).screen.screenX = k.screen.screenX ∧
        (k.scrollPage mem src).screen.screenY = k.screen.screenY := by
      rw [scrollPage_eq k hm hs]
      exact ⟨rfl, rfl⟩
    simp only [wrapCursor, numRows, numCols, hy, if_true]
    generalize k.scrollPage mem src = k₁ at hcell hcursor ⊢
    have hsettle := @TextConsole.settle_of_eq Cell 80 25 blankCell
      { k.console page t with x := k.screen.screenX t % 80 } hy
    rw [hsettle]
    refine ⟨hcell, ?_, ?_⟩
    · simp [console, TextConsole.scroll, setCursor, hcursor.1]
    · simp [console, TextConsole.scroll, setCursor, hcursor.2]
  · simp only [wrapCursor, numRows, numCols, hy, if_false]
    have hsettle := @TextConsole.settle_of_ne Cell 80 25 blankCell
      { k.console page t with x := k.screen.screenX t % 80 } hy
    rw [hsettle]
    refine ⟨fun _ _ => rfl, ?_, ?_⟩
    · simp [console, setCursor]
    · simp [console, setCursor]

/-- A cell stored on the page, and the abstract cell it is. -/
theorem onlyPage_storeCell (hm : mem % 4096 = 0) (hmem : k.phys mem = page) {n : ℕ} (hn : n < 2000)
    (t : Terminal) (c : Byte) : OnlyPage page t k (k.storeCell mem n c) ∧
      ∀ i < 2000, ((k.storeCell mem n c).console page t).cell i =
        Function.update (k.console page t).cell n (c, attrib) i := by
  have hstore := storeCell_withRam k k.screen.ram hm hn c
  rw [hmem] at hstore
  change k.storeCell mem n c = _ at hstore
  rw [hstore]
  refine ⟨.withRam fun a ha => ?_, fun i hi => ?_⟩
  · rw [Function.update_of_ne (by omega), Function.update_of_ne (by omega)]
  · simp only [console, withRam]
    rcases eq_or_ne i n with rfl | hne
    · rw [Function.update_self, Function.update_self, Function.update_of_ne (by omega),
        Function.update_self]
    · rw [Function.update_of_ne hne, Function.update_of_ne (by omega),
        Function.update_of_ne (by omega), Function.update_of_ne (by omega),
        Function.update_of_ne (by omega)]

/-- The output routines touch one page only, if that is where they store and scroll to as far as
the character makes them do either. -/
theorem onlyPage_putChar {c : Byte} (hm : mem % 4096 = 0) (hs : src % 4096 = 0)
    (hb : k.screen.screenX t < 80 ∧ k.screen.screenY t < 25)
    (hstore : c ≠ 0 → ¬(c = 10 ∨ c = 13) → k.phys mem = page)
    (hscroll : Scrolls c (k.console page t) → k.phys mem = page) :
    OnlyPage page t k (k.putChar t mem (fun k => k.scrollPage mem src) c) := by
  unfold putChar
  by_cases h0 : c = 0
  · rw [if_pos h0]
    exact .refl _ _ _
  rw [if_neg h0]
  by_cases hnl : c = 10 ∨ c = 13
  · simp only [if_pos hnl]
    refine (OnlyPage.setCursor _ _ _ _ _).trans (onlyPage_wrapCursor hm hs fun hend => ?_)
    have hcur : (k.setCursor t 0 (k.screen.screenY t + 1)).screen.screenY t =
        k.screen.screenY t + 1 := Function.update_self _ _ _
    exact hscroll ⟨h0, by rw [if_pos hnl, ← hend, hcur]; rfl⟩
  · simp only [if_neg hnl, numCols]
    have hstored := (@onlyPage_storeCell k mem page hm (hstore h0 hnl)
      (80 * k.screen.screenY t + k.screen.screenX t) (by omega) t c).1
    refine (hstored.trans (OnlyPage.setCursor _ _ _ _ _)).trans
      (onlyPage_wrapCursor hm hs fun _ => ?_)
    have hmem := hstore h0 hnl
    rw [phys] at hmem ⊢
    exact hmem

/-- They are a console's answer to a character, if they also scroll from that page. -/
theorem console_putChar {c : Byte} (hm : mem % 4096 = 0) (hs : src % 4096 = 0)
    (hb : (k.console page t).InBounds 80 25)
    (hstore : c ≠ 0 → ¬(c = 10 ∨ c = 13) → k.phys mem = page)
    (hscroll : Scrolls c (k.console page t) → k.phys mem = page ∧ k.phys src = page) :
    TextConsole.Same 80 25 ((k.putChar t mem (fun k => k.scrollPage mem src) c).console page t)
        (feed c (k.console page t)) ∧
      OnlyPage page t k (k.putChar t mem (fun k => k.scrollPage mem src) c) := by
  have hx : k.screen.screenX t < 80 := hb.x
  have hy : k.screen.screenY t < 25 := hb.y
  refine ⟨?_, onlyPage_putChar hm hs ⟨hx, hy⟩ hstore fun h => (hscroll h).1⟩
  unfold putChar feed
  by_cases h0 : c = 0
  · rw [if_pos h0, if_pos h0]
    exact .refl _
  rw [if_neg h0, if_neg h0]
  by_cases hnl : c = 10 ∨ c = 13
  · simp only [if_pos hnl]
    have hcur : (k.setCursor t 0 (k.screen.screenY t + 1)).screen.screenY t =
        k.screen.screenY t + 1 := Function.update_self _ _ _
    have hsame := @console_wrapCursor (k.setCursor t 0 (k.screen.screenY t + 1)) t mem
      src page hm hs fun hend => hscroll ⟨h0, by rw [if_pos hnl, ← hend, hcur]; rfl⟩
    refine hsame.trans (TextConsole.Same.settle ⟨fun _ _ => rfl, ?_, hcur⟩)
    show (Function.update k.screen.screenX t 0 t) % 80 = 0
    rw [Function.update_self]
  · simp only [if_neg hnl, numCols]
    have hmem := hstore h0 hnl
    obtain ⟨honly, hcell⟩ := @onlyPage_storeCell k mem page hm hmem
      (80 * k.screen.screenY t + k.screen.screenX t) (by omega) t c
    generalize k.storeCell mem (80 * k.screen.screenY t + k.screen.screenX t) c = k₁
      at honly hcell ⊢
    have hphys : k₁.phys = k.phys := by
      funext a
      rw [phys, phys, honly.onlyScreen.paging]
    have hx' : (k₁.setCursor t (k.screen.screenX t + 1)
        (k.screen.screenY t + (k.screen.screenX t + 1) / 80)).screen.screenX t =
          k.screen.screenX t + 1 := Function.update_self _ _ _
    have hy' : (k₁.setCursor t (k.screen.screenX t + 1)
        (k.screen.screenY t + (k.screen.screenX t + 1) / 80)).screen.screenY t =
          k.screen.screenY t + (k.screen.screenX t + 1) / 80 := Function.update_self _ _ _
    have hsame := @console_wrapCursor (k₁.setCursor t (k.screen.screenX t + 1)
      (k.screen.screenY t + (k.screen.screenX t + 1) / 80)) t mem src page hm hs fun hend => by
        have hs := hscroll ⟨h0, by rw [if_neg hnl, ← hend, hy']; rfl⟩
        rw [← hphys] at hs
        exact hs
    refine hsame.trans (TextConsole.Same.settle ⟨hcell, ?_, hy'⟩)
    simp only [hx']
    rfl

/-- Only the scroll at the state it is made in counts. -/
theorem wrapCursor_congr {scroll scroll' : Kernel → Kernel} (h : scroll k = scroll' k) :
    k.wrapCursor t scroll = k.wrapCursor t scroll' := by
  simp only [wrapCursor, h]

/-- The page the scroll routine of `putc` stores to does not change while `putc` runs. -/
theorem putc_eq (c : Byte) (k : Kernel) :
    k.putc c = k.putChar k.proc.scheduleIndex k.outputMem
      (fun k' => k'.scrollPage k.outputMem videoMem) c := by
  have hscroll : ∀ k', OnlyScreen k k' →
      k'.scrollScreen = k'.scrollPage k.outputMem videoMem := by
    intro k' h
    rw [scrollScreen, outputMem, outputMem, h.proc, h.visibleScreen]
  unfold putc putChar
  split_ifs
  · rfl
  · exact wrapCursor_congr (hscroll _ (onlyScreen_setCursor _ _ _ _))
  · exact wrapCursor_congr (hscroll _
      ((onlyScreen_storeCell _ _ _ _).trans (onlyScreen_setCursor _ _ _ _)))

end Kernel

end MpOS
