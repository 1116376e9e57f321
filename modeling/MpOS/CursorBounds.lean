import MpOS.Isolation

/-!
# Cursors and the accesses they lead to

The output routines once more, with every load and store checked to lie in the 4000 bytes
of a text page (`OutputEvent.checked`). The offsets are computed from the cursors, from
the cell before the cursor in `delete_char`, and from the counters of the loops. While
the cursors are on the screen no check fails, and the routines keep them there
(`cursors_inBounds`).
-/

namespace MpOS

open Transition

namespace Kernel

/-! ## Checked routines -/

/-- The bytes of a text page. -/
def textSize : ℤ :=
  4000

/-- Store a byte at an offset of the text page at `page`. -/
def storeIn (page : ℕ) (off : ℤ) (b : Byte) (k : Kernel) : Option Kernel :=
  if 0 ≤ off ∧ off < textSize then some (k.store (page + off.toNat) b) else none

/-- Load the byte at an offset of the text page at `page`. -/
def loadIn (page : ℕ) (off : ℤ) (k : Kernel) : Option Byte :=
  if 0 ≤ off ∧ off < textSize then some (k.load (page + off.toNat)) else none

/-- `storeCell`. -/
def storeCellIn (base n : ℕ) (c : Byte) (k : Kernel) : Option Kernel :=
  (k.storeIn base (2 * n) c).bind fun k => k.storeIn base (2 * n + 1) attrib

/-- `scrollCell`. -/
def scrollCellIn (dest src n : ℕ) (k : Kernel) : Option Kernel :=
  ((k.loadIn src (2 * (n + numCols))).bind fun c => k.storeIn dest (2 * n) c).bind fun k =>
    (k.loadIn src (2 * (n + numCols) + 1)).bind fun a => k.storeIn dest (2 * n + 1) a

/-- `scrollPage`. -/
def scrollPageIn (dest src : ℕ) (k : Kernel) : Option Kernel :=
  ((List.range (numRows - 1)).foldlM (fun k i => (List.range numCols).foldlM
    (fun (k : Kernel) j => k.scrollCellIn dest src (i * numCols + j)) k) k).bind fun k =>
      (List.range numCols).foldlM (fun (k : Kernel) i => k.storeCellIn dest (screenSize + i) 0) k

/-- `wrapCursor`. -/
def wrapCursorIn (t : Terminal) (scroll : Kernel → Option Kernel) (k : Kernel) : Option Kernel :=
  let k :=
    if k.screen.screenY t = numRows then
      (scroll k).map fun k => k.setCursor t (k.screen.screenX t) (k.screen.screenY t - 1)
    else some k
  k.map fun k => k.setCursor t (k.screen.screenX t % numCols) (k.screen.screenY t)

/-- `putChar`. -/
def putCharIn (t : Terminal) (mem : ℕ) (scroll : Kernel → Option Kernel) (c : Byte) (k : Kernel) :
    Option Kernel :=
  if c = 0 then some k
  else
    let x := k.screen.screenX t
    let y := k.screen.screenY t
    if c = 10 ∨ c = 13 then (k.setCursor t 0 (y + 1)).wrapCursorIn t scroll
    else (k.storeCellIn mem (numCols * y + x) c).bind fun k =>
      (k.setCursor t (x + 1) (y + (x + 1) / numCols)).wrapCursorIn t scroll

/-- `putc`. -/
def putcIn (c : Byte) (k : Kernel) : Option Kernel :=
  k.putCharIn k.proc.scheduleIndex k.outputMem (fun k => k.scrollPageIn k.outputMem videoMem) c

/-- `putc_keyboard`. -/
def putcKeyboardIn (c : Byte) (k : Kernel) : Option Kernel :=
  k.putCharIn k.screen.visibleScreen keyVideoMem (scrollPageIn keyVideoMem keyVideoMem) c

/-- The loops of the two clear routines. -/
def clearPageIn (base : ℕ) (k : Kernel) : Option Kernel :=
  (List.range numRows).foldlM (fun k i => (List.range numCols).foldlM
    (fun (k : Kernel) j => k.storeCellIn base (i * numCols + j) 0) k) k

/-- `key_clear_screen`. -/
def keyClearScreenIn (k : Kernel) : Option Kernel :=
  (k.clearPageIn keyVideoMem).map fun k => k.setCursor k.screen.visibleScreen 0 0

/-- `clear_screen`. -/
def clearScreenIn (k : Kernel) : Option Kernel :=
  (k.clearPageIn videoMem).map fun k => k.setCursor k.proc.scheduleIndex 0 0

/-- `delete_char`. -/
def deleteCharIn (k : Kernel) : Option Kernel :=
  let t := k.screen.visibleScreen
  let x := k.screen.screenX t
  let y := k.screen.screenY t
  if x = 0 ∧ y = 0 then some k
  else if k.counter t = 0 then some k
  else
    ((k.storeIn keyVideoMem (2 * (numCols * y + x - 1)) 32).bind fun k =>
      k.storeIn keyVideoMem (2 * (numCols * y + x) + 1) attrib).map fun k =>
        if x = 0 then k.setCursor t (numCols - 1) (y - 1)
        else k.setCursor t (x - 1) y

/-! ## Cursors -/

/-- The cursors are on the screen. -/
structure OnScreen (k : Kernel) : Prop where
  x : ∀ t, k.screen.screenX t < 80
  y : ∀ t, k.screen.screenY t < 25

/-- The cursors are as before. -/
structure SameCursors (k k' : Kernel) : Prop where
  screenX : k'.screen.screenX = k.screen.screenX
  screenY : k'.screen.screenY = k.screen.screenY

namespace SameCursors

theorem refl (k : Kernel) : SameCursors k k :=
  ⟨rfl, rfl⟩

theorem trans {k k' k'' : Kernel} (h : SameCursors k k') (h' : SameCursors k' k'') :
    SameCursors k k'' :=
  ⟨h'.screenX.trans h.screenX, h'.screenY.trans h.screenY⟩

theorem foldl {α : Type*} {f : Kernel → α → Kernel} (hf : ∀ k a, SameCursors k (f k a)) :
    ∀ (l : List α) (k : Kernel), SameCursors k (l.foldl f k)
  | [], k => refl k
  | a :: l, k => (hf k a).trans (foldl hf l (f k a))

/-- Cursors that did not move are where they were. -/
theorem onScreen {k k' : Kernel} (h : SameCursors k k') (hk : k.OnScreen) : k'.OnScreen where
  x t := by
    rw [h.screenX]
    exact hk.x t
  y t := by
    rw [h.screenY]
    exact hk.y t

end SameCursors

theorem sameCursors_storeCell (k : Kernel) (base n : ℕ) (c : Byte) :
    SameCursors k (k.storeCell base n c) :=
  ⟨rfl, rfl⟩

theorem sameCursors_scrollCell (k : Kernel) (dest src n : ℕ) :
    SameCursors k (k.scrollCell dest src n) :=
  ⟨rfl, rfl⟩

/-- A scroll copies cells, it moves no cursor. -/
theorem sameCursors_scrollPage (k : Kernel) (dest src : ℕ) :
    SameCursors k (k.scrollPage dest src) :=
  (SameCursors.foldl (fun k _ => .foldl (fun k _ => sameCursors_scrollCell k _ _ _) _ k) _ k).trans
    (.foldl (fun k _ => sameCursors_storeCell k _ _ _) _ _)

/-- Nor does blanking a page. -/
theorem sameCursors_clearPage (k : Kernel) (base : ℕ) :
    SameCursors k ((List.range numRows).foldl (fun k i =>
      (List.range numCols).foldl (fun k j => k.storeCell base (i * numCols + j) 0) k) k) :=
  .foldl (fun k _ => .foldl (fun k _ => sameCursors_storeCell k _ _ _) _ k) _ k

/-- A cursor that is moved was anywhere before. -/
theorem onScreen_setCursor {k : Kernel} {t : Terminal}
    (h : ∀ t', t' ≠ t → k.screen.screenX t' < 80 ∧ k.screen.screenY t' < 25) {x y : ℕ}
    (hx : x < 80) (hy : y < 25) : (k.setCursor t x y).OnScreen := by
  refine ⟨fun t' => ?_, fun t' => ?_⟩
  · show Function.update k.screen.screenX t x t' < 80
    rcases eq_or_ne t' t with rfl | hne
    · rwa [Function.update_self]
    · rw [Function.update_of_ne hne]
      exact (h t' hne).1
  · show Function.update k.screen.screenY t y t' < 25
    rcases eq_or_ne t' t with rfl | hne
    · rwa [Function.update_self]
    · rw [Function.update_of_ne hne]
      exact (h t' hne).2

/-- A cursor set inside the screen. -/
theorem OnScreen.setCursor {k : Kernel} (h : k.OnScreen) (t : Terminal) {x y : ℕ} (hx : x < 80)
    (hy : y < 25) : (k.setCursor t x y).OnScreen :=
  onScreen_setCursor (fun t' _ => ⟨h.x t', h.y t'⟩) hx hy

/-! ## No check fails -/

variable {k : Kernel}

/-- A store at an offset of the page is checked and goes through. -/
theorem storeIn_eq {off : ℤ} {n : ℕ} (h : off = n) (hn : n < 4000) (page : ℕ) (b : Byte) :
    k.storeIn page off b = some (k.store (page + n) b) := by
  have hin : 0 ≤ off ∧ off < textSize := by
    rw [h, textSize]
    omega
  rw [storeIn, if_pos hin, h, Int.toNat_natCast]

/-- So is a load. -/
theorem loadIn_eq {off : ℤ} {n : ℕ} (h : off = n) (hn : n < 4000) (page : ℕ) :
    k.loadIn page off = some (k.load (page + n)) := by
  have hin : 0 ≤ off ∧ off < textSize := by
    rw [h, textSize]
    omega
  rw [loadIn, if_pos hin, h, Int.toNat_natCast]

/-- The two bytes of a cell on the screen. -/
theorem storeCellIn_eq {n : ℕ} (hn : n < 2000) (base : ℕ) (c : Byte) :
    k.storeCellIn base n c = some (k.storeCell base n c) := by
  have hchar : (2 * n : ℤ) = (2 * n : ℕ) := by omega
  have hattr : (2 * n + 1 : ℤ) = (2 * n + 1 : ℕ) := by omega
  rw [storeCellIn, storeIn_eq hchar (by omega), Option.bind_some, storeIn_eq hattr (by omega),
    storeCell, Nat.add_assoc]

/-- A cell of any line but the first is moved up inside the page. -/
theorem scrollCellIn_eq {n : ℕ} (hn : n < 1920) (dest src : ℕ) :
    k.scrollCellIn dest src n = some (k.scrollCell dest src n) := by
  have hcols : numCols = 80 := rfl
  have hload : (2 * (n + numCols) : ℤ) = (2 * (n + numCols) : ℕ) := by omega
  have hload' : (2 * (n + numCols) + 1 : ℤ) = (2 * (n + numCols) + 1 : ℕ) := by omega
  have hstore : (2 * n : ℤ) = (2 * n : ℕ) := by omega
  have hstore' : (2 * n + 1 : ℤ) = (2 * n + 1 : ℕ) := by omega
  rw [scrollCellIn, loadIn_eq hload (by omega), Option.bind_some, storeIn_eq hstore (by omega),
    Option.bind_some, loadIn_eq hload' (by omega), Option.bind_some, storeIn_eq hstore' (by omega),
    scrollCell]
  simp only [Nat.add_assoc]

/-- The checked scroll of a page is the scroll. -/
theorem scrollPageIn_eq (dest src : ℕ) (k : Kernel) :
    k.scrollPageIn dest src = some (k.scrollPage dest src) := by
  have hcols : numCols = 80 := rfl
  have hrow : ∀ i ∈ List.range (numRows - 1), ∀ k : Kernel, (List.range numCols).foldlM
      (fun (k : Kernel) j => k.scrollCellIn dest src (i * numCols + j)) k =
        some ((List.range numCols).foldl
          (fun k j => k.scrollCell dest src (i * numCols + j)) k) := by
    intro i hi k
    refine Loop.foldlM_eq_some (fun j hj k => scrollCellIn_eq ?_ dest src) k
    have hi' : i < 24 := List.mem_range.1 hi
    have hj' : j < 80 := List.mem_range.1 hj
    rw [hcols]
    omega
  have hblank : ∀ i ∈ List.range numCols, ∀ k : Kernel,
      k.storeCellIn dest (screenSize + i) 0 = some (k.storeCell dest (screenSize + i) 0) := by
    intro i hi k
    have hi' : i < 80 := List.mem_range.1 hi
    have hsize : screenSize = 1920 := rfl
    exact storeCellIn_eq (by omega) dest 0
  rw [scrollPageIn, Loop.foldlM_eq_some hrow, Option.bind_some, Loop.foldlM_eq_some hblank,
    scrollPage]

/-- The checked clear of a page is the clear. -/
theorem clearPageIn_eq (base : ℕ) (k : Kernel) :
    k.clearPageIn base = some ((List.range numRows).foldl (fun k i =>
      (List.range numCols).foldl (fun k j => k.storeCell base (i * numCols + j) 0) k) k) := by
  have hcols : numCols = 80 := rfl
  refine Loop.foldlM_eq_some (fun i hi k => Loop.foldlM_eq_some (fun j hj k => ?_) k) k
  have hi' : i < 25 := List.mem_range.1 hi
  have hj' : j < 80 := List.mem_range.1 hj
  exact storeCellIn_eq (by rw [hcols]; omega) base 0

/-- With a scroll that stays in its page, so does the wrap. -/
theorem wrapCursorIn_eq {scroll : Kernel → Option Kernel} {scroll' : Kernel → Kernel}
    (h : scroll k = some (scroll' k)) (t : Terminal) :
    k.wrapCursorIn t scroll = some (k.wrapCursor t scroll') := by
  unfold wrapCursorIn wrapCursor
  split_ifs
  · rw [h]
    rfl
  · rfl

/-- A character at a cursor on the screen, both branches and the scroll. -/
theorem putCharIn_eq (hk : k.OnScreen) {scroll : Kernel → Option Kernel} {scroll' : Kernel → Kernel}
    (h : ∀ k, scroll k = some (scroll' k)) (t : Terminal) (mem : ℕ) (c : Byte) :
    k.putCharIn t mem scroll c = some (k.putChar t mem scroll' c) := by
  have hx := hk.x t
  have hy := hk.y t
  have hcols : numCols = 80 := rfl
  unfold putCharIn putChar
  split_ifs
  · rfl
  · exact wrapCursorIn_eq (h _) t
  · have hstore := @storeCellIn_eq k (numCols * k.screen.screenY t + k.screen.screenX t)
      (by rw [hcols]; omega) mem c
    simp only [hstore, Option.bind_some]
    exact wrapCursorIn_eq (h _) t

/-- `deletechar` at column 0 stays on its line, elsewhere it goes one cell back. -/
theorem deleteCharIn_eq (hk : k.OnScreen) : k.deleteCharIn = some k.deleteChar := by
  have hx := hk.x k.screen.visibleScreen
  have hy := hk.y k.screen.visibleScreen
  have hcols : numCols = 80 := rfl
  simp only [deleteCharIn, deleteChar]
  generalize k.screen.screenX k.screen.visibleScreen = x at hx ⊢
  generalize k.screen.screenY k.screen.visibleScreen = y at hy ⊢
  by_cases h0 : x = 0 ∧ y = 0
  · rw [if_pos h0, if_pos h0]
  rw [if_neg h0, if_neg h0]
  by_cases hc : k.counter k.screen.visibleScreen = 0
  · rw [if_pos hc, if_pos hc]
  -- there is a cell before the cursor
  have hchar : (2 * (numCols * y + x - 1) : ℤ) = (2 * (numCols * y + x - 1) : ℕ) := by
    rw [hcols]
    omega
  have hattr : (2 * (numCols * y + x) + 1 : ℤ) = (2 * (numCols * y + x) + 1 : ℕ) := by
    push_cast
    rfl
  rw [if_neg hc, if_neg hc, storeIn_eq hchar (by rw [hcols]; omega), Option.bind_some,
    storeIn_eq hattr (by rw [hcols]; omega), Option.map_some, Nat.add_assoc keyVideoMem]

/-! ## The cursors stay on the screen -/

/-- The end of the output routines brings a cursor back that is one cell or one row too far. -/
theorem onScreen_wrapCursor {scroll : Kernel → Kernel} (hs : ∀ k, SameCursors k (scroll k))
    (hk : k.OnScreen) (t : Terminal) (x : ℕ) {y : ℕ} (hy : y ≤ 25) :
    ((k.setCursor t x y).wrapCursor t scroll).OnScreen := by
  have hcols : ∀ n, n % numCols < 80 := fun n => Nat.mod_lt n (by decide)
  have hcur : (k.setCursor t x y).screen.screenY t = y := Function.update_self _ _ _
  have hother : ∀ t', t' ≠ t → (k.setCursor t x y).screen.screenX t' < 80 ∧
      (k.setCursor t x y).screen.screenY t' < 25 := by
    intro t' ht'
    simp only [setCursor, Function.update_of_ne ht']
    exact ⟨hk.x t', hk.y t'⟩
  generalize k.setCursor t x y = k₁ at hcur hother ⊢
  have hrows : numRows = 25 := rfl
  have hscroll := hs k₁
  simp only [wrapCursor]
  split_ifs with hend
  · generalize scroll k₁ = k₂ at hscroll ⊢
    rw [← hscroll.screenX, ← hscroll.screenY] at hother
    rw [← hscroll.screenY] at hcur
    refine onScreen_setCursor (fun t' ht' => ?_) (hcols _) ?_
    · simp only [setCursor, Function.update_of_ne ht']
      exact hother t' ht'
    · simp only [setCursor, Function.update_self]
      omega
  · exact onScreen_setCursor hother (hcols _) (by omega)

/-- The character leaves every cursor on the screen. -/
theorem onScreen_putChar {scroll : Kernel → Kernel} (hs : ∀ k, SameCursors k (scroll k))
    (hk : k.OnScreen) (t : Terminal) (mem : ℕ) (c : Byte) :
    (k.putChar t mem scroll c).OnScreen := by
  have hx := hk.x t
  have hy := hk.y t
  unfold putChar
  split_ifs
  · exact hk
  · exact onScreen_wrapCursor hs hk t 0 (by omega)
  · have hstore := (sameCursors_storeCell k mem (numCols * k.screen.screenY t + k.screen.screenX t)
      c).onScreen hk
    refine onScreen_wrapCursor hs hstore t _ ?_
    rw [numCols]
    omega

/-- So does `deletechar`, which never goes above the first cell. -/
theorem onScreen_deleteChar (hk : k.OnScreen) : k.deleteChar.OnScreen := by
  have hx := hk.x k.screen.visibleScreen
  have hy := hk.y k.screen.visibleScreen
  have hstores : ∀ a b a' b', ((k.store a b).store a' b').OnScreen := fun _ _ _ _ => ⟨hk.x, hk.y⟩
  simp only [deleteChar]
  split_ifs
  · exact hk
  · exact hk
  · exact (hstores _ _ _ _).setCursor _ (by decide) (by omega)
  · exact (hstores _ _ _ _).setCursor _ (by omega) hy

/-! ## Runs -/

/-- The steps that move a cursor or can come between those : the keyboard handler also changes
its own data, the line counters among them. -/
inductive CursorEvent
  | putc (c : Byte)
  | putcKeyboard (c : Byte)
  | deleteChar
  | keyClearScreen
  | clearScreen
  | switchVid (target : Terminal)
  | contextSwitch (frame : SwitchFrame)
  | keyboard (keyboard : Keyboard)

/-- One step. -/
def cursorStep (k : Kernel) : CursorEvent → Option Kernel
  | .putc c => some (k.putc c)
  | .putcKeyboard c => some (k.putcKeyboard c)
  | .deleteChar => some k.deleteChar
  | .keyClearScreen => some k.keyClearScreen
  | .clearScreen => some k.clearScreen
  | .switchVid target => some (k.switchVid target)
  | .contextSwitch frame => some (k.contextSwitch frame)
  | .keyboard keyboard => some { k with keyboard := keyboard }

/-- One step, with its accesses to the text pages checked. -/
def checkedStep (k : Kernel) : CursorEvent → Option Kernel
  | .putc c => k.putcIn c
  | .putcKeyboard c => k.putcKeyboardIn c
  | .deleteChar => k.deleteCharIn
  | .keyClearScreen => k.keyClearScreenIn
  | .clearScreen => k.clearScreenIn
  | e => k.cursorStep e

/-- With the cursors on the screen no check fails. -/
theorem checkedStep_eq (hk : k.OnScreen) (e : CursorEvent) : k.checkedStep e = k.cursorStep e := by
  cases e with
  | putc c => exact putCharIn_eq hk (fun k => scrollPageIn_eq _ _ k) _ _ c
  | putcKeyboard c => exact putCharIn_eq hk (fun k => scrollPageIn_eq _ _ k) _ _ c
  | deleteChar => exact deleteCharIn_eq hk
  | keyClearScreen =>
    rw [checkedStep, keyClearScreenIn, clearPageIn_eq, Option.map_some, cursorStep, keyClearScreen]
  | clearScreen =>
    rw [checkedStep, clearScreenIn, clearPageIn_eq, Option.map_some, cursorStep, clearScreen]
  | switchVid target => rfl
  | contextSwitch frame => rfl
  | keyboard keyboard => rfl

/-- And every step keeps them there. -/
theorem onScreen_step (hk : k.OnScreen) {e : CursorEvent} {k' : Kernel}
    (h : k.cursorStep e = some k') : k'.OnScreen := by
  cases e with
  | putc c =>
    obtain rfl := Option.some.inj h
    exact onScreen_putChar (fun k => sameCursors_scrollPage k _ _) hk _ _ c
  | putcKeyboard c =>
    obtain rfl := Option.some.inj h
    exact onScreen_putChar (fun k => sameCursors_scrollPage k _ _) hk _ _ c
  | deleteChar =>
    obtain rfl := Option.some.inj h
    exact onScreen_deleteChar hk
  | keyClearScreen =>
    obtain rfl := Option.some.inj h
    exact ((sameCursors_clearPage k keyVideoMem).onScreen hk).setCursor _ (by decide) (by decide)
  | clearScreen =>
    obtain rfl := Option.some.inj h
    exact ((sameCursors_clearPage k videoMem).onScreen hk).setCursor _ (by decide) (by decide)
  | switchVid target =>
    obtain rfl := Option.some.inj h
    exact SameCursors.onScreen ⟨(k.switchVid_cursor target).1, (k.switchVid_cursor target).2⟩ hk
  | contextSwitch frame =>
    obtain rfl := Option.some.inj h
    exact SameCursors.onScreen ⟨by rw [contextSwitch_screen], by rw [contextSwitch_screen]⟩ hk
  | keyboard keyboard =>
    obtain rfl := Option.some.inj h
    exact ⟨hk.x, hk.y⟩

/-- From the zero cursors on, the cursors are on the screen in every state, and every access the
steps make with them lies in the 4000 bytes of its text page. -/
theorem cursors_inBounds (h : ∀ t, k.screen.screenX t = 0 ∧ k.screen.screenY t = 0)
    (es : List CursorEvent) :
    AllStates cursorStep OnScreen k es ∧
      AllEvents cursorStep (fun k e => k.checkedStep e = k.cursorStep e) k es := by
  have hon : k.OnScreen :=
    ⟨fun t => (h t).1.trans_lt (by decide), fun t => (h t).2.trans_lt (by decide)⟩
  refine ((allStates_and_allEvents_iff (C := fun _ _ => True) fun k e hk => ?_) hon).2 ?_
  · exact iff_of_true ⟨checkedStep_eq hk e, fun k' hk' => onScreen_step hk hk'⟩ trivial
  · exact AllEvents.of_mem fun _ _ _ => trivial

/-- A row and a character, and as many newlines as the screen has rows, and one more. -/
def overflow : List CursorEvent :=
  List.replicate 81 (.putc 97) ++ List.replicate 26 (.putc 10)

/-- The cursor of the first terminal after some events. -/
def cursorAfter (es : List CursorEvent) : Option (ℕ × ℕ) :=
  (run cursorStep zero es).map fun k => (k.screen.screenX 0, k.screen.screenY 0)

/-- The text wraps in the first row, and scrolls in the last. -/
theorem cursors_inBounds_zero :
    cursorAfter (overflow.take 81) = some (1, 1) ∧ cursorAfter overflow = some (0, 24) ∧
      AllStates cursorStep OnScreen zero
        (overflow ++ [.putcKeyboard 97, .deleteChar, .switchVid 1, .putcKeyboard 98]) ∧
      AllEvents cursorStep (fun k e => k.checkedStep e = k.cursorStep e) zero
        (overflow ++ [.putcKeyboard 97, .deleteChar, .switchVid 1, .putcKeyboard 98]) :=
  ⟨by decide +kernel, by decide +kernel, cursors_inBounds (fun _ => ⟨rfl, rfl⟩) _⟩

end Kernel

end MpOS
